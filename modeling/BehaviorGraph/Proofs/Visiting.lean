/-
# Visits

A visitor looks at a member, answers with an action, and the action is performed before the next
member has its turn.  `Visitor.visitStep` is one such turn, and **what every turn keeps the whole
visit keeps** (`visitNodes_keeps`), whether it goes through to the end, is stopped, or is aborted.

The state of a visit is a definition and a memory.  Most of what a visitor does concerns the graph
of the definition only, and `ends_onGraph` moves a statement about the visit to one about the
graph.

A pass visits one definition after the other, and again **what every visit keeps the pass keeps**
(`updateAll_ends`).  Of a pass that succeeded more is known: each definition was changed once, when
those in front of it in the schedule had been and the others had not (`updateAll_changes`).
-/
import BehaviorGraph.Proofs.Arena
import BehaviorGraph.Proofs.Runs
import BehaviorGraph.Proofs.Scheduling
import BehaviorGraph.Traversal.Visitor
import Mathlib.Data.List.Forall2

namespace BehaviorGraph

variable {σ α : Type} {g : Graph} {id new : NodeId} {payload : Payload}

/-! ## 1. Work on the graph -/

/-- An edit within a rule, its faults wrapped. -/
theorem ends_editing (edit : Edit α) (Q : Except Abort α → Graph → Prop) :
    (editing edit).Ends g Q ↔ edit.Ends g fun r g' => Q (r.mapError Abort.ofFault) g' :=
  Run.ends_within id (fun s _ => s) Abort.ofFault edit Q

/-- The payload of a member is found. -/
theorem ends_payloadOf (hmember : g.member? id = some payload)
    (Q : Except Abort Payload → Graph → Prop) :
    (payloadOf id).Ends g Q ↔ Q (.ok payload) g := by
  rw [payloadOf, Run.ends_bind, Run.ends_state]
  simp only [Graph.payload?_of_member? hmember]
  exact Run.ends_pure _ _

/-- The state of a visit with another graph. -/
def VisitState.withGraph (v : VisitState σ) (g : Graph) : VisitState σ :=
  { v with definition := { v.definition with behavior := g } }

variable {v : VisitState σ}

/-- **Work on the graph concerns the graph only.** -/
theorem ends_onGraph (m : Run Abort Graph α) (Q : Except Abort α → VisitState σ → Prop) :
    (Visiting.onGraph m).Ends v Q ↔ m.Ends v.definition.behavior fun r g =>
      Q r (v.withGraph g) := by
  rw [Visiting.onGraph, Run.ends_within]
  unfold Run.Ends
  cases (m v.definition.behavior).result <;> rfl

/-- An edit within a visit. -/
theorem ends_edit (edit : Edit α) (Q : Except Abort α → VisitState σ → Prop) :
    (Visiting.edit edit).Ends v Q ↔ edit.Ends v.definition.behavior fun r g =>
      Q (r.mapError Abort.ofFault) (v.withGraph g) := by
  rw [Visiting.edit, ends_onGraph, ends_editing]

/-- Performing a change succeeds if the replacement does. -/
theorem perform_change {Q : Except Abort Bool → Graph → Prop}
    (h : (Graph.replace id new).Ends g fun r g' => (∃ member, r = .ok member) ∧ Q (.ok true) g') :
    ((Action.change new).perform id).Ends g Q := by
  rw [Action.perform, Run.ends_bind, ends_editing]
  refine h.imp fun r g' hend => ?_
  obtain ⟨⟨member, rfl⟩, hend⟩ := hend
  show (Run.state >>= _).Ends g' Q
  rw [Run.ends_bind, Run.ends_state]
  simp only
  rw [Run.ends_bind, Run.ends_log]
  exact hend

/-! ## 2. One turn -/

variable {visitor : Visitor σ} {others : List Definition}

/-- A member is offered to the first hook there is, from that of its kind to that of all nodes. -/
theorem ends_visitNode_of_hook {act : List Definition → NodeId → Visiting σ Action}
    (hmember : v.definition.behavior.member? id = some payload)
    (hhook : payload.kind.hooks.findSome? visitor.hook = some act)
    (Q : Except Abort Action → VisitState σ → Prop) :
    (visitor.visitNode others id).Ends v Q ↔ (act others id).Ends v Q := by
  rw [Visitor.visitNode, Run.ends_bind, Visiting.graph, Run.ends_read]
  simp only [Graph.kind?_of_member? hmember, Option.bind_some, hhook]

/-- Without a hook the answer is to go on. -/
theorem ends_visitNode_of_none (hmember : v.definition.behavior.member? id = some payload)
    (hhook : payload.kind.hooks.findSome? visitor.hook = none)
    (Q : Except Abort Action → VisitState σ → Prop) :
    (visitor.visitNode others id).Ends v Q ↔ Q (.ok .proceed) v := by
  rw [Visitor.visitNode, Run.ends_bind, Visiting.graph, Run.ends_read]
  simp only [Graph.kind?_of_member? hmember, Option.bind_some, hhook]
  exact Run.ends_pure _ _

/-- Look at a node and perform the action that is answered. -/
def Visitor.visitStep (visitor : Visitor σ) (others : List Definition) (id : NodeId) :
    Visiting σ Bool := do
  let action ← visitor.visitNode others id
  Visiting.onGraph (action.perform id)

/-- A node without a hook is passed by. -/
theorem visitStep_of_none {Q : Except Abort Bool → VisitState σ → Prop}
    (hmember : v.definition.behavior.member? id = some payload)
    (hhook : payload.kind.hooks.findSome? visitor.hook = none) (h : Q (.ok true) v) :
    (visitor.visitStep others id).Ends v Q := by
  rw [Visitor.visitStep, Run.ends_bind, ends_visitNode_of_none hmember hhook]
  simp only
  rw [ends_onGraph, Action.perform, Run.ends_pure]
  exact h

/-! ## 3. Turn after turn -/

/-- A member has its turn before the rest. -/
theorem ends_visitNodes_cons {rest : List NodeId}
    (hactive : v.definition.behavior.isActive id = true)
    (Q : Except Abort Unit → VisitState σ → Prop) :
    (visitor.visitNodes others (id :: rest)).Ends v Q ↔ (visitor.visitStep others id).Ends v fun
      | .ok goOn, v' => if goOn then (visitor.visitNodes others rest).Ends v' Q else Q (.ok ()) v'
      | .error e, v' => Q (.error e) v' := by
  rw [Visitor.visitNodes, Run.ends_bind, Visiting.graph, Run.ends_read]
  simp only [hactive, Bool.not_true, Bool.false_eq_true, if_false]
  rw [Visitor.visitStep, Run.ends_bind, Run.ends_bind]
  refine Run.ends_congr fun r v' => ?_
  cases r with
  | error e => exact Iff.rfl
  | ok action =>
    simp only
    rw [Run.ends_bind]
    refine Run.ends_congr fun r v'' => ?_
    cases r with
    | error e => exact Iff.rfl
    | ok goOn => cases goOn <;> exact Iff.rfl

/-- Who is no member any more is left out. -/
theorem ends_visitNodes_skip {rest : List NodeId}
    (hactive : v.definition.behavior.isActive id = false)
    (Q : Except Abort Unit → VisitState σ → Prop) :
    (visitor.visitNodes others (id :: rest)).Ends v Q ↔
      (visitor.visitNodes others rest).Ends v Q := by
  rw [Visitor.visitNodes, Run.ends_bind, Visiting.graph, Run.ends_read]
  simp only [hactive, Bool.not_false, if_true]

/-- **What every turn keeps, the visit of a list keeps**; it is aborted only as a turn is. -/
theorem visitNodes_keeps {P : VisitState σ → Prop} {A : Abort → VisitState σ → Prop}
    (hstep : ∀ {v id payload}, P v → v.definition.behavior.member? id = some payload →
      (visitor.visitStep others id).Ends v fun r v' => P v' ∧ ∀ e, r = .error e → A e v')
    (ids : List NodeId) (h : P v) :
    (visitor.visitNodes others ids).Ends v fun r v' => P v' ∧ ∀ e, r = .error e → A e v' := by
  induction ids generalizing v with
  | nil =>
    rw [Visitor.visitNodes, Run.ends_pure]
    exact ⟨h, fun e he => absurd he (by simp)⟩
  | cons id rest ih =>
    cases hactive : v.definition.behavior.isActive id with
    | false =>
      rw [ends_visitNodes_skip hactive]
      exact ih h
    | true =>
      rw [ends_visitNodes_cons hactive]
      obtain ⟨payload, hmember⟩ := Graph.isActive_iff.mp hactive
      refine (hstep h hmember).imp fun r v' hend => ?_
      cases r with
      | error e => exact ⟨hend.1, fun e' he' => Except.error.inj he' ▸ hend.2 e rfl⟩
      | ok goOn =>
        cases goOn with
        | true => exact ih hend.1
        | false => exact ⟨hend.1, fun e he => absurd he (by simp)⟩

/-- **What every turn hands on to the rest, the visit of a list hands on to the end**, if no turn
stops it and it is not aborted. -/
theorem visitNodes_hands_on {P : List NodeId → VisitState σ → Prop}
    (hskip : ∀ {v id rest}, P (id :: rest) v → v.definition.behavior.member? id = none → P rest v)
    (hstep : ∀ {v id rest payload}, P (id :: rest) v →
      v.definition.behavior.member? id = some payload →
      (visitor.visitStep others id).Ends v fun r v' => ∀ goOn, r = .ok goOn →
        goOn = true ∧ P rest v')
    (ids : List NodeId) (h : P ids v) :
    (visitor.visitNodes others ids).Ends v fun r v' => r = .ok () → P [] v' := by
  induction ids generalizing v with
  | nil =>
    rw [Visitor.visitNodes, Run.ends_pure]
    exact fun _ => h
  | cons id rest ih =>
    cases hmember : v.definition.behavior.member? id with
    | none =>
      rw [ends_visitNodes_skip (by rw [Graph.isActive_eq_isSome_member?, hmember]; rfl)]
      exact ih (hskip h hmember)
    | some payload =>
      rw [ends_visitNodes_cons (Graph.isActive_iff.mpr ⟨payload, hmember⟩)]
      refine (hstep h hmember).imp fun r v' hend => ?_
      cases r with
      | error e => exact fun he => absurd he (by simp)
      | ok goOn =>
        obtain ⟨rfl, hrest⟩ := hend goOn rfl
        exact ih hrest

/-- A visit in which no turn changes anything. -/
theorem visitNodes_rests (hstep : ∀ {id payload}, v.definition.behavior.member? id = some payload →
      (visitor.visitStep others id).Ends v fun r v' => r = .ok true ∧ v' = v) (ids : List NodeId) :
    (visitor.visitNodes others ids).Ends v fun r v' => r = .ok () ∧ v' = v := by
  induction ids with
  | nil => exact ⟨rfl, rfl⟩
  | cons id rest ih =>
    cases hmember : v.definition.behavior.member? id with
    | none =>
      rw [ends_visitNodes_skip (by rw [Graph.isActive_eq_isSome_member?, hmember]; rfl)]
      exact ih
    | some payload =>
      rw [ends_visitNodes_cons (Graph.isActive_iff.mpr ⟨payload, hmember⟩)]
      refine (hstep hmember).imp fun r v' hend => ?_
      obtain ⟨rfl, rfl⟩ := hend
      exact ih

/-- **A visit of a definition does what the visit of its nodes does**, if the visitor does nothing
before, and nothing that matters after. -/
theorem visitDefinition_of_visit {d : Definition} {memory : σ} {order : List NodeId}
    {Q : Except Abort Unit → VisitState σ → Prop} (hstart : visitor.start others = pure .proceed)
    (horder : visitor.orderNodes d.behavior = .ok order)
    (hfinish : ∀ v, Q (.ok ()) v → (visitor.finish others).Ends v fun r v' =>
      (∃ action, r = .ok action) ∧ Q (.ok ()) { v' with memory := visitor.clear v'.memory })
    (h : (visitor.visitNodes others order).Ends ⟨memory, d⟩ Q) :
    (visitor.visitDefinition others).Ends ⟨memory, d⟩ Q := by
  rw [Visitor.visitDefinition, Run.ends_bind, hstart, Run.ends_pure]
  simp only [if_true]
  rw [Run.ends_bind, Visiting.graph, Run.ends_read]
  simp only
  rw [Run.ends_bind, Run.ends_ofExcept, horder]
  simp only
  rw [Run.ends_bind]
  refine h.imp fun r v hend => ?_
  cases r with
  | error e => exact hend
  | ok value =>
    simp only
    rw [Run.ends_bind]
    refine (hfinish v hend).imp fun r v' hfinished => ?_
    obtain ⟨⟨action, rfl⟩, hend⟩ := hfinished
    exact hend

/-- The same if only the definition matters. -/
theorem visitDefinition_of_nodes {d : Definition} {memory : σ} {order : List NodeId}
    {Q : Except Abort Unit → Definition → Prop} (hstart : visitor.start others = pure .proceed)
    (horder : visitor.orderNodes d.behavior = .ok order)
    (hfinish : ∀ v : VisitState σ, (visitor.finish others).Ends v fun r v' =>
      (∃ action, r = .ok action) ∧ v'.definition = v.definition)
    (h : (visitor.visitNodes others order).Ends ⟨memory, d⟩ fun r v => Q r v.definition) :
    (visitor.visitDefinition others).Ends ⟨memory, d⟩ fun r v => Q r v.definition := by
  refine visitDefinition_of_visit hstart horder
    (fun v hend => (hfinish v).imp fun r v' hdone => ?_) h
  obtain ⟨haction, hsame⟩ := hdone
  exact ⟨haction, by rw [hsame]; exact hend⟩

/-- **A visit that does all its work on the graph beforehand does nothing else.** -/
theorem visitDefinition_of_edit {d : Definition} {memory : σ} {edit : Edit α}
    {Q : Except Abort Unit → Definition → Prop} {later : α → Visiting σ Action}
    (hstart : visitor.start others = Visiting.edit edit >>= later)
    (hlater : ∀ a (v : VisitState σ), (later a).Ends v fun r v' =>
      r = .ok .stop ∧ v'.definition = v.definition)
    (h : edit.Ends d.behavior fun r g => ∃ a, r = .ok a ∧ Q (.ok ()) { d with behavior := g }) :
    (visitor.visitDefinition others).Ends ⟨memory, d⟩ fun r v => Q r v.definition := by
  rw [Visitor.visitDefinition, Run.ends_bind, hstart, Run.ends_bind, ends_edit]
  refine h.imp fun r g hend => ?_
  obtain ⟨a, rfl, hend⟩ := hend
  refine (hlater a _).imp fun r v hdone => ?_
  obtain ⟨rfl, hsame⟩ := hdone
  show Q (.ok ()) v.definition
  rw [hsame]
  exact hend

/-! ## 4. Definition after definition -/

/-- A definition is changed in its place, and the others stay. -/
theorem ends_updateAt {ε : Type}
    {change : List Definition → Run ε (VisitState σ) Unit} {place : Nat}
    {p : PassState σ} {d : Definition} (hd : p.context.definitions[place]? = some d)
    (Q : Except ε Unit → PassState σ → Prop) :
    (updateAt change place).Ends p Q ↔
      (change (p.context.definitions.eraseIdx place)).Ends ⟨p.memory, d⟩ fun r v =>
        Q r ⟨v.memory, { p.context with
          definitions := p.context.definitions.set place v.definition }⟩ := by
  unfold Run.Ends updateAt
  simp only [hd]

/-- Where there is no definition there is nothing to change. -/
theorem ends_updateAt_of_none {ε : Type} {change : List Definition → Run ε (VisitState σ) Unit}
    {place : Nat} {p : PassState σ} (hnone : p.context.definitions[place]? = none)
    (Q : Except ε Unit → PassState σ → Prop) : (updateAt change place).Ends p Q ↔ Q (.ok ()) p := by
  unfold Run.Ends updateAt
  simp only [hnone]

/-- **What the change of any definition keeps, the change of all keeps**, in whatever order they are
scheduled. -/
theorem updateAll_ends {ε : Type} {blame : Error → ε} {order : CallOrder}
    {change : List Definition → Run ε (VisitState σ) Unit} {P : List Nat → PassState σ → Prop}
    {p : PassState σ} {places : List Nat}
    (hschedule : schedule p.context.definitions order = .ok places)
    (hstep : ∀ {done p} place, P done p →
      (updateAt change place).Ends p fun r p' => r = .ok () ∧ P (place :: done) p') (h : P [] p) :
    (updateAll blame order change).Ends p fun r p' => r = .ok () ∧ P places.reverse p' := by
  rw [updateAll, Run.ends_bind, Run.ends_state]
  simp only
  rw [Run.ends_bind, Run.ends_ofExcept, hschedule]
  refine (Run.each_ends hstep places h).imp fun r p' hend => ?_
  rwa [List.append_nil] at hend

/-- **Some definitions were changed, the others are as they were.** -/
structure Halfway (R : Definition → Definition → Prop) (start : List Definition) (done : List Nat)
    (now : List Definition) : Prop where
  length : now.length = start.length
  changed : ∀ {place d₀ d}, place ∈ done → start[place]? = some d₀ → now[place]? = some d → R d₀ d
  waiting : ∀ {place}, place ∉ done → now[place]? = start[place]?

namespace Halfway

variable {R S : Definition → Definition → Prop} {start now : List Definition} {done : List Nat}
  {place : Nat} {d₀ d : Definition}

theorem refl (R : Definition → Definition → Prop) (start : List Definition) :
    Halfway R start [] start :=
  ⟨rfl, fun hin => absurd hin (by simp), fun _ => rfl⟩

/-- One more definition is changed. -/
theorem change (h : Halfway R start done now) (hd : start[place]? = some d₀) (hchanged : R d₀ d) :
    Halfway R start (done ++ [place]) (now.set place d) where
  length := by rw [List.length_set, h.length]
  changed := by
    intro other d₀' d' hin hd₀' hd'
    by_cases heq : place = other
    · subst heq
      have hlt : place < now.length := h.length ▸ (List.getElem?_eq_some_iff.mp hd).1
      rw [List.getElem?_set_self hlt] at hd'
      obtain rfl := Option.some.inj hd'
      obtain rfl := Option.some.inj (hd.symm.trans hd₀')
      exact hchanged
    · rw [List.getElem?_set_ne heq] at hd'
      have hin' : other ∈ done := by simpa [Ne.symm heq] using hin
      exact h.changed hin' hd₀' hd'
  waiting := by
    intro other hout
    simp only [List.mem_append, List.mem_singleton, not_or] at hout
    rw [List.getElem?_set_ne (Ne.symm hout.2), h.waiting hout.1]

/-- Every definition has become what is said of it. -/
theorem related (h : Halfway R start done now)
    (hchanged : ∀ {d₀ d}, R d₀ d → S d₀ d)
    (hwaiting : ∀ {place d}, place ∉ done → start[place]? = some d → S d d) :
    List.Forall₂ S start now := by
  refine List.forall₂_iff_get.mpr ⟨h.length.symm, fun place hlt hlt' => ?_⟩
  have hd₀ : start[place]? = some start[place] := List.getElem?_eq_getElem hlt
  have hd : now[place]? = some now[place] := List.getElem?_eq_getElem hlt'
  by_cases hin : place ∈ done
  · exact hchanged (h.changed hin hd₀ hd)
  · have hsame := h.waiting hin
    rw [hd, hd₀] at hsame
    show S start[place] now[place]
    rw [Option.some.inj hsame]
    exact hwaiting hin hd₀

end Halfway

/-- **What every change hands on to the next, the change of all hands on to the end**, if it
succeeds. -/
theorem updateAll_hands_on {ε : Type} {blame : Error → ε} {order : CallOrder}
    {change : List Definition → Run ε (VisitState σ) Unit} {P : List Nat → PassState σ → Prop}
    {p : PassState σ}
    (hstep : ∀ {done place rest p'},
      schedule p.context.definitions order = .ok (done ++ place :: rest) → P done p' →
      (updateAt change place).Ends p' fun r p'' => r = .ok () → P (done ++ [place]) p'')
    (h : P [] p) :
    (updateAll blame order change).Ends p fun r p' => r = .ok () →
      ∃ places, schedule p.context.definitions order = .ok places ∧ P places p' := by
  rw [updateAll, Run.ends_bind, Run.ends_state]
  simp only
  rw [Run.ends_bind, Run.ends_ofExcept]
  cases hschedule : schedule p.context.definitions order with
  | error e => exact fun herror => absurd herror (by simp)
  | ok places =>
    refine (Run.each_hands_on (P := P) ?_ h).imp fun r p' hend hok => ⟨places, rfl, hend hok⟩
    rintro done place rest p' rfl hdone
    exact hstep hschedule hdone

/-- **What is said of every changed definition holds when all were changed**, if that succeeds.
`M` is what is known of the memory. -/
theorem updateAll_changes {ε : Type} {blame : Error → ε} {order : CallOrder}
    {change : List Definition → Run ε (VisitState σ) Unit} {M : σ → Prop}
    {R : Definition → Definition → Prop} {p : PassState σ}
    (hstep : ∀ {done place rest now memory d},
      schedule p.context.definitions order = .ok (done ++ place :: rest) →
      Halfway R p.context.definitions done now → p.context.definitions[place]? = some d → M memory →
      (change (now.eraseIdx place)).Ends ⟨memory, d⟩ fun r v =>
        r = .ok () → M v.memory ∧ R d v.definition)
    (hmemory : M p.memory) :
    (updateAll blame order change).Ends p fun r p' => r = .ok () →
      List.Forall₂ R p.context.definitions p'.context.definitions ∧
      p'.context.options = p.context.options := by
  refine (updateAll_hands_on (P := fun done p' =>
    Halfway R p.context.definitions done p'.context.definitions ∧ M p'.memory ∧
    p'.context.options = p.context.options) ?_ ⟨.refl R _, hmemory, rfl⟩).imp
      fun r p' hend hok => ?_
  · rintro done place rest p' hschedule ⟨hhalfway, hmemory', hoptions⟩
    obtain ⟨hfresh, hlt⟩ := fresh_of_schedule hschedule
    have hd := List.getElem?_eq_getElem hlt
    rw [ends_updateAt ((hhalfway.waiting hfresh).trans hd)]
    refine (hstep hschedule hhalfway hd hmemory').imp fun r v hend hok => ?_
    obtain ⟨hmemory'', hchanged⟩ := hend hok
    exact ⟨hhalfway.change hd hchanged, hmemory'', hoptions⟩
  · obtain ⟨places, hschedule, hhalfway, -, hoptions⟩ := hend hok
    refine ⟨hhalfway.related (fun h => h) fun hout hd => absurd ?_ hout, hoptions⟩
    exact (schedule_perm hschedule).mem_iff.mpr
      (List.mem_range.mpr (List.getElem?_eq_some_iff.mp hd).1)

/-- The visit of a context by a pass that knows what to start with. -/
def Pass.visitFrom (pass : Pass σ) (memory : σ) : Run Abort Context σ := fun context =>
  let o := pass.visit ⟨memory, context⟩
  ⟨o.result.map fun _ => o.state.memory, o.state.context, o.reports⟩

/-- A run is what the pass starts with and then the visit. -/
theorem Pass.run_eq (pass : Pass σ) : pass.run = pass.init >>= pass.visitFrom := rfl

/-- **A pass does what its visitor does with every definition**, once it knows what to start with.
-/
theorem Pass.ends_run {pass : Pass σ} {context : Context} {memory : σ}
    (hinit : pass.init.Ends context fun r context' => r = .ok memory ∧ context' = context)
    (hvisits : pass.visitor.precondition memory context = none)
    (Q : Except Abort σ → Context → Prop) :
    pass.run.Ends context Q ↔ (updateAll Abort.error pass.visitor.callOrder
      pass.visitor.visitDefinition).Ends ⟨memory, context⟩ fun r p =>
        Q (r.map fun _ => p.memory) p.context := by
  have hvisit : pass.visit ⟨memory, context⟩ = (updateAll Abort.error pass.visitor.callOrder
      pass.visitor.visitDefinition ⟨memory, context⟩).after [] := by
    unfold Pass.visit
    rw [Run.bind_ok (Run.state_apply _)]
    simp only [hvisits]
  rw [Pass.run_eq, Run.ends_bind]
  unfold Run.Ends at hinit ⊢
  rw [hinit.1, hinit.2]
  simp only [Pass.visitFrom, hvisit]
  exact Iff.rfl

/-- A pass that cannot start does nothing. -/
theorem Pass.ends_run_of_error {pass : Pass σ} {context : Context} {e : Abort}
    (hinit : pass.init.Ends context fun r context' => r = .error e ∧ context' = context)
    (Q : Except Abort σ → Context → Prop) : pass.run.Ends context Q ↔ Q (.error e) context := by
  rw [Pass.run_eq, Run.ends_bind]
  unfold Run.Ends at hinit ⊢
  rw [hinit.1, hinit.2]

/-- **What is said of every changed definition holds after a pass that succeeded.** -/
theorem Pass.run_changes {pass : Pass σ} {context : Context} {M : σ → Prop}
    {R : Definition → Definition → Prop}
    (hinit : pass.init.Ends context fun r context' =>
      context' = context ∧ ∀ memory, r = .ok memory → M memory)
    (hvisits : ∀ memory, pass.visitor.precondition memory context = none)
    (hstep : ∀ {done place rest now memory d},
      schedule context.definitions pass.visitor.callOrder = .ok (done ++ place :: rest) →
      Halfway R context.definitions done now → context.definitions[place]? = some d → M memory →
      (pass.visitor.visitDefinition (now.eraseIdx place)).Ends ⟨memory, d⟩ fun r v =>
        r = .ok () → M v.memory ∧ R d v.definition) :
    pass.run.Ends context fun r context' => ∀ memory, r = .ok memory →
      List.Forall₂ R context.definitions context'.definitions ∧
      context'.options = context.options := by
  obtain ⟨hsame, hmemory⟩ := hinit
  cases hresult : (pass.init context).result with
  | error e =>
    rw [Pass.ends_run_of_error ⟨hresult, hsame⟩]
    exact fun memory herror => absurd herror (by simp)
  | ok memory =>
    rw [Pass.ends_run ⟨hresult, hsame⟩ (hvisits memory)]
    refine (updateAll_changes (p := ⟨memory, context⟩) hstep (hmemory memory hresult)).imp
      fun r p hend memory' hok => hend ?_
    cases r with
    | ok value => rfl
    | error e => exact absurd hok (by simp [Except.map])

/-- If nothing needs to be known of the other definitions, each can be visited by itself. -/
theorem Pass.run_changes_each {pass : Pass σ} {context : Context}
    {R : Definition → Definition → Prop}
    (hinit : pass.init.Ends context fun _ context' => context' = context)
    (hvisits : ∀ memory, pass.visitor.precondition memory context = none)
    (hvisit : ∀ d ∈ context.definitions, ∀ others memory,
      (pass.visitor.visitDefinition others).Ends ⟨memory, d⟩ fun r v => r = .ok () →
        R d v.definition) :
    pass.run.Ends context fun r context' => ∀ memory, r = .ok memory →
      List.Forall₂ R context.definitions context'.definitions ∧
      context'.options = context.options := by
  refine Pass.run_changes (M := fun _ => True) ⟨hinit, fun _ _ => trivial⟩ hvisits ?_
  intro done place rest now memory d _ _ hd _
  exact (hvisit d (List.mem_of_getElem? hd) _ memory).imp fun r v hend hok => ⟨trivial, hend hok⟩

/-- **A pass that leaves every definition as it is leaves the context as it is.** -/
theorem Pass.run_rests {pass : Pass σ} {context : Context} {memory : σ} {places : List Nat}
    (hinit : pass.init.Ends context fun r context' => r = .ok memory ∧ context' = context)
    (hvisits : pass.visitor.precondition memory context = none)
    (hschedule : schedule context.definitions pass.visitor.callOrder = .ok places)
    (hvisit : ∀ d ∈ context.definitions, ∀ others memory,
      (pass.visitor.visitDefinition others).Ends ⟨memory, d⟩ fun r v => r = .ok () ∧
        v.definition = d) :
    pass.run.Ends context fun r context' => (∃ memory, r = .ok memory) ∧ context' = context := by
  rw [Pass.ends_run hinit hvisits]
  refine (updateAll_ends (P := fun _ p => p.context = context) hschedule ?_ rfl).imp
    fun r p hend => ?_
  · rintro _ ⟨memory, context'⟩ place rfl
    cases hd : context'.definitions[place]? with
    | none =>
      rw [ends_updateAt_of_none hd]
      exact ⟨rfl, rfl⟩
    | some d =>
      rw [ends_updateAt hd]
      refine (hvisit d (List.mem_of_getElem? hd) _ memory).imp fun r v hend => ?_
      obtain ⟨rfl, rfl⟩ := hend
      obtain ⟨hlt, hget⟩ := List.getElem?_eq_some_iff.mp hd
      refine ⟨rfl, ?_⟩
      show { context' with definitions := context'.definitions.set place v.definition } = context'
      rw [← hget, List.set_getElem_self]
  · obtain ⟨rfl, hsame⟩ := hend
    exact ⟨⟨p.memory, rfl⟩, hsame⟩

end BehaviorGraph
