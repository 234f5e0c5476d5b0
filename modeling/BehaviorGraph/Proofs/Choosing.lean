/-
# Which rule eliminates a cast

The rules for casts overlap: between two types of one width, of which the second is that of truth
values, two of them have an answer.  They are tried in order, so **for every cast exactly one of
them is chosen**, and which one follows from the two types (`chosen_iff`).

The types are those of the graph in which the cast is visited.  A run visits every cast there was
in the beginning, each while it is still a cast, though its operand may have moved by then
(`visitNodes_progress`).  Since values have types in every graph without cycles, the rules never
leave a cast alone, and the pass succeeds (`Context.elimination_total`).
-/
import BehaviorGraph.Proofs.Eliminating

namespace BehaviorGraph

open CastElimination

variable {g : Graph} {id value : NodeId} {source type : ValueType}

/-! ## 1. The rule that is chosen -/

namespace Rule

variable {rules : List Rule} {place place' : Nat}

/-- A rule that has nothing to say about a node, and leaves the graph as it is. -/
def Passes (rule : Rule) (g : Graph) (id : NodeId) : Prop :=
  (rule.apply id).Ends g fun r g' => r = .ok .proceed ∧ g' = g

/-- **The rule at a place is chosen for a node**: those in front of it pass, it says what the node
is to be replaced by, and that is what the rules say together. -/
def Chosen (rules : List Rule) (g : Graph) (id : NodeId) (place : Nat) : Prop :=
  ∃ front rule behind, rules = front ++ rule :: behind ∧ front.length = place ∧
    (∀ earlier ∈ front, earlier.Passes g id) ∧
    (rule.apply id).Ends g fun r g' => (∃ new, r = .ok (.change new)) ∧
      (visit rules id).Ends g fun r' g'' => r' = r ∧ g'' = g'

/-- No two rules are chosen. -/
theorem Chosen.unique (h : Chosen rules g id place) (h' : Chosen rules g id place') :
    place = place' := by
  -- Of two chosen rules the one further back would have the other one pass.
  have hle : ∀ {place place'}, Chosen rules g id place → Chosen rules g id place' →
      place' ≤ place := by
    rintro _ _ ⟨front, rule, behind, hrules, rfl, -, ⟨new, hanswer⟩, -⟩
      ⟨front', rule', behind', hrules', rfl, hpass, -⟩
    by_contra hlt
    have hrule : rules[front.length]? = some rule := by simp [hrules]
    rw [hrules', List.getElem?_append_left (Nat.not_le.mp hlt)] at hrule
    have hproceed := (hpass rule (List.mem_of_getElem? hrule)).1
    rw [hanswer] at hproceed
    exact absurd hproceed (by simp)
  exact Nat.le_antisymm (hle h' h) (hle h h')

end Rule

namespace CastElimination

variable {name : String} {answer : NodeId → ValueType → ValueType → Option (Run Abort Graph Action)}
  {front behind : List Rule} {rule : Rule} {place : Nat}

theorem castTypes_of_member (hmember : g.member? id = some (.typeCast value type))
    (hsource : g.typeOf value = some source) : castTypes g id = some (value, source, type) := by
  rw [castTypes, Graph.payload?_of_member? hmember]
  simp [hsource]

/-- A rule for casts does what its answer does, if it has one. -/
theorem ends_castRule (hcast : castTypes g id = some (value, source, type))
    (Q : Except Abort Action → Graph → Prop) :
    ((castRule name answer).apply id).Ends g Q
      ↔ ((answer value source type).getD (pure .proceed)).Ends g Q := by
  simp only [castRule]
  rw [Run.ends_bind, Run.ends_state]
  simp only [hcast, Option.bind_some]
  cases answer value source type <;> exact Iff.rfl

/-- Without one it passes. -/
theorem passes_castRule (hcast : castTypes g id = some (value, source, type))
    (hnone : answer value source type = none) : (castRule name answer).Passes g id := by
  rw [Rule.Passes, ends_castRule hcast, hnone]
  exact ⟨rfl, rfl⟩

/-- What the rules say together is always a change. -/
theorem render_changes (h : g.Kept) (value : NodeId) (source type : ValueType) :
    (render value source type).Ends g fun r _ => ∃ new, r = .ok (.change new) := by
  have hchange : ∀ (payload : Payload) (g : Graph),
      (changeTo payload).Ends g fun r _ => ∃ new, r = .ok (.change new) := by
    intro payload g
    rw [changeTo, Run.ends_bind, ends_editing]
    exact ⟨_, rfl⟩
  unfold render
  split
  · exact ⟨value, rfl⟩
  · split
    · rw [Run.ends_bind, ends_editing]
      refine (Graph.add_joined h rfl).imp fun r between hend => ?_
      obtain ⟨zero, rfl, -⟩ := hend
      exact hchange _ between
    · split <;> exact hchange _ g

/-- A rule that answers as the rules do together is chosen, if those in front of it pass. -/
theorem chosen_of_render (front : List Rule) (rule : Rule) (h : g.Kept)
    (hmember : g.member? id = some (.typeCast value type))
    (hsource : g.typeOf value = some source) (hrules : rules = front ++ rule :: behind)
    (hfront : ∀ earlier ∈ front, earlier.Passes g id)
    (hrule : ∀ Q, (rule.apply id).Ends g Q ↔ (render value source type).Ends g Q) :
    Rule.Chosen rules g id front.length := by
  refine ⟨front, rule, behind, hrules, rfl, hfront, (hrule _).mpr ?_⟩
  refine ⟨render_changes h value source type, visit_of_render hmember hsource ⟨?_, rfl, rfl⟩⟩
  obtain ⟨new, hnew⟩ := render_changes h value source type
  rw [hnew]
  simp

/-- The place of the rule for a cast from one type to another. -/
def ruleFor (source type : ValueType) : Nat :=
  if source.width = type.width then 0 else if type = .bool then 1
  else if type.width < source.width then 2 else 3

/-- **Exactly one rule is chosen for a cast of a value with a type**, by the two types. -/
theorem chosen_iff (h : g.Kept) (hmember : g.member? id = some (.typeCast value type))
    (hsource : g.typeOf value = some source) :
    Rule.Chosen rules g id place ↔ place = ruleFor source type := by
  have hcast := castTypes_of_member hmember hsource
  have hchosen : Rule.Chosen rules g id (ruleFor source type) := by
    by_cases hwidth : source.width = type.width
    · rw [ruleFor, if_pos hwidth]
      refine chosen_of_render [] sameWidth h hmember hsource rfl (by simp) fun Q => ?_
      rw [sameWidth, ends_castRule hcast, render, if_pos hwidth]
      simp [ValueType.isTrivialCastTo, hwidth]
    have hsame : sameWidth.Passes g id :=
      passes_castRule hcast (by simp [ValueType.isTrivialCastTo, hwidth])
    by_cases hbool : type = .bool
    · rw [ruleFor, if_neg hwidth, if_pos hbool]
      refine chosen_of_render [sameWidth] toBool h hmember hsource rfl
        (by simpa using hsame) fun Q => ?_
      rw [toBool, ends_castRule hcast, render, if_neg hwidth, if_pos hbool, if_pos hbool,
        Option.getD_some]
    have htest : toBool.Passes g id := passes_castRule hcast (if_neg hbool)
    by_cases hnarrow : type.width < source.width
    · rw [ruleFor, if_neg hwidth, if_neg hbool, if_pos hnarrow]
      refine chosen_of_render [sameWidth, toBool] narrow h hmember hsource rfl
        (by simpa using ⟨hsame, htest⟩) fun Q => ?_
      rw [narrow, ends_castRule hcast, render, if_neg hwidth, if_neg hbool, if_pos hnarrow,
        if_pos hnarrow, Option.getD_some]
    have htruncate : narrow.Passes g id := passes_castRule hcast (if_neg hnarrow)
    rw [ruleFor, if_neg hwidth, if_neg hbool, if_neg hnarrow]
    refine chosen_of_render [sameWidth, toBool, narrow] widen h hmember hsource rfl
      (by simpa using ⟨hsame, htest, htruncate⟩) fun Q => ?_
    rw [widen, ends_castRule hcast, render, if_neg hwidth, if_neg hbool, if_neg hnarrow,
      if_pos (by omega), Option.getD_some]
  exact ⟨fun hplace => hplace.unique hchosen, fun hplace => hplace ▸ hchosen⟩

end CastElimination

/-! ## 2. The casts that are visited -/

/-- **What the visit of a node has to decide**: it is a cast, its operand has a type, exactly one
rule is chosen for it, the visit answers with a change, and the change succeeds. -/
def Decides (others : List Definition) (id : NodeId) (v : VisitState Unit) : Prop :=
  ∃ value type source, v.definition.behavior.member? id = some (.typeCast value type) ∧
    v.definition.behavior.typeOf value = some source ∧
    (∀ place, Rule.Chosen rules v.definition.behavior id place ↔ place = ruleFor source type) ∧
    ((pass.visitor.visitNode others id).Ends v fun r _ => ∃ new, r = .ok (.change new)) ∧
    (pass.visitor.visitStep others id).Ends v fun r _ => r = .ok true

variable {v : VisitState Unit} {d : Definition} {others : List Definition} {rank : NodeId → Nat}

/-- The visit of a cast answers what the rules say. -/
theorem visitNode_changes (h : v.definition.behavior.Kept)
    (hmember : v.definition.behavior.member? id = some (.typeCast value type))
    (hsource : v.definition.behavior.typeOf value = some source) :
    (pass.visitor.visitNode others id).Ends v fun r _ => ∃ new, r = .ok (.change new) := by
  have hhook : (Payload.typeCast value type).kind.hooks.findSome? pass.visitor.hook
      = some fun _ id => visit id := rfl
  rw [ends_visitNode_of_hook hmember hhook, visit, Run.ends_bind, Visiting.graph, Run.ends_read]
  simp only
  rw [Run.ends_bind, ends_onGraph]
  refine visit_of_render hmember hsource ((render_changes h value source type).imp
    fun r g' hend => ?_)
  obtain ⟨new, rfl⟩ := hend
  exact ⟨by simp, new, rfl⟩

/-- **Every cast is visited while it is a cast, and the visit decides.** -/
theorem visitNodes_decides {done rest : List NodeId} {payload : Payload} (h : d.behavior.Kept)
    (hranked : d.behavior.Ranked rank) (hmembers : d.behavior.members = done ++ id :: rest)
    (hmember : d.behavior.member? id = some payload) (hkind : payload.kind = .typeCast) :
    (pass.visitor.visitNodes others done).Ends ⟨(), d⟩ fun r v => r = .ok () ∧
      Decides others id v := by
  have hstart : Progress d.behavior (⟨(), d⟩ : VisitState Unit).definition.behavior (fun id => id)
      (done ++ id :: rest) := hmembers ▸ progress_start h hranked
  have hsorted := hmembers ▸ d.behavior.pairwise_members
  have hdone : ∀ other ∈ done, ∃ payload, d.behavior.member? other = some payload :=
    fun other hother =>
    Graph.mem_members_iff.mp (hmembers ▸ List.mem_append_left _ hother)
  refine (visitNodes_progress hstart hdone hsorted).imp fun r v hend => ?_
  obtain ⟨rfl, moved, hprogress⟩ := hend
  obtain ⟨rank', hranked'⟩ := hprogress.ranked
  cases payload with
  | typeCast operand target =>
    have hstays := hprogress.stays hmember (.inr (by simp))
    obtain ⟨found, hfound, hvalue⟩ := hprogress.kept.value_of_mem_inputEdges hstays rfl
      (Payload.value_mem_inputEdges rfl : moved operand ∈ _)
    obtain ⟨source, hsource, -⟩ := Graph.exists_typeOf hprogress.kept hranked' hfound hvalue
    exact ⟨rfl, _, _, source, hstays, hsource, fun place =>
      chosen_iff hprogress.kept hstays hsource,
      visitNode_changes hprogress.kept hstays hsource,
      (visitStep_cast hprogress.kept hranked' hstays hsource).imp fun r v' hend => hend.1⟩
  | _ => exact Kind.noConfusion hkind

/-! ## 3. The pass -/

/-- **A definition without its casts**: the other members are still there, with the same payloads,
of which only the edges have moved. -/
def Definition.Uncast (d d' : Definition) : Prop :=
  (∀ id, d'.behavior.isActive id = true → d'.behavior.kind? id ≠ some .typeCast) ∧
  ∃ moved : NodeId → NodeId, ∀ id payload, d.behavior.member? id = some payload →
    payload.kind ≠ .typeCast → d'.behavior.member? id = some (payload.mapEdges moved)

theorem Progress.uncast {d' : Definition} {moved : NodeId → NodeId}
    (h : Progress d.behavior d'.behavior moved []) : d.Uncast d' := by
  refine ⟨fun id hactive hkind => ?_, moved, fun id payload hmember hother =>
    h.stays hmember (.inl hother)⟩
  obtain ⟨payload, hmember⟩ := Graph.isActive_iff.mp hactive
  rw [Graph.kind?_of_member? hmember] at hkind
  cases payload with
  | typeCast value type => exact absurd (h.casts hmember) (by simp)
  | _ => exact absurd hkind (by simp [Payload.kind])

namespace Context

variable {context : Context}

/-- A pass over graphs without cycles succeeds. -/
theorem elimination_succeeds (h : ∀ d ∈ context.definitions, d.behavior.Kept ∧
      ∃ rank, d.behavior.Ranked rank) :
    CastElimination.pass.run.Ends context fun r _ => r = .ok () := by
  have hinit : CastElimination.pass.init.Ends context fun r context' => r = .ok () ∧
      context' = context :=
    ⟨rfl, rfl⟩
  rw [Pass.ends_run hinit rfl]
  refine (updateAll_ends (P := fun _ p => ∀ d ∈ p.context.definitions, d.behavior.Kept ∧
    ∃ rank, d.behavior.Ranked rank) rfl ?_ h).imp fun r p hend => by rw [hend.1]; rfl
  intro done p place hall
  cases hd : p.context.definitions[place]? with
  | none =>
    rw [ends_updateAt_of_none hd]
    exact ⟨rfl, hall⟩
  | some d =>
    obtain ⟨hkept, rank, hranked⟩ := hall d (List.mem_of_getElem? hd)
    rw [ends_updateAt hd]
    refine (visitDefinition_progress hkept hranked _).imp fun r v hend => ?_
    obtain ⟨rfl, moved, hprogress⟩ := hend
    refine ⟨rfl, fun d' hd' => ?_⟩
    rcases List.mem_or_eq_of_mem_set hd' with hin | rfl
    · exact hall d' hin
    · exact ⟨hprogress.kept, hprogress.ranked⟩

/-- **Eliminating the casts of graphs without cycles always succeeds.**

Every value has a type.  Every cast is visited while it is one, whatever was visited before it, and
its visit decides: exactly one rule is chosen, by the type of the operand and the type that is
wanted, so there is never a cast that no rule has an answer for, and the replacement is accepted.
So the pass succeeds, no cast is left, and every other member is left as it was but for where its
edges lead. -/
theorem elimination_total (hreachable : ∀ d ∈ context.definitions, d.behavior.Reachable)
    (hacyclic : ∀ d ∈ context.definitions, d.behavior.Acyclic) :
    (∀ d ∈ context.definitions,
      (∀ id, d.behavior.isActive id = true → d.behavior.isA id .value = true →
        ∃ type, d.behavior.typeOf id = some type) ∧
      ∀ others done id rest, d.behavior.members = done ++ id :: rest →
        d.behavior.kind? id = some .typeCast →
        (pass.visitor.visitNodes others done).Ends ⟨(), d⟩ fun r v => r = .ok () ∧
          Decides others id v) ∧
    pass.run.Ends context fun r context' => r = .ok () ∧
      List.Forall₂ Definition.Uncast context.definitions context'.definitions := by
  have hgraphs : ∀ d ∈ context.definitions, d.behavior.Kept ∧ ∃ rank, d.behavior.Ranked rank :=
    fun d hd => ⟨(hreachable d hd).kept, (hacyclic d hd).exists_ranked (hreachable d hd).kept⟩
  refine ⟨fun d hd => ⟨fun id hactive hvalue => ?_, fun others done id rest hmembers hcast => ?_⟩,
    ?_⟩
  · obtain ⟨hkept, rank, hranked⟩ := hgraphs d hd
    obtain ⟨payload, hmember⟩ := Graph.isActive_iff.mp hactive
    have hkind : payload.kind.isA .value = true := by
      simpa [Graph.isA, Graph.kind?_of_member? hmember] using hvalue
    obtain ⟨type, htype, -⟩ := Graph.exists_typeOf hkept hranked hmember hkind
    exact ⟨type, htype⟩
  · obtain ⟨hkept, rank, hranked⟩ := hgraphs d hd
    have hin : id ∈ d.behavior.members := by simp [hmembers]
    obtain ⟨payload, hmember⟩ := Graph.mem_members_iff.mp hin
    rw [Graph.kind?_of_member? hmember] at hcast
    exact visitNodes_decides hkept hranked hmembers hmember (Option.some.inj hcast)
  · have hok := elimination_succeeds hgraphs
    have hchanges : pass.run.Ends context fun r context' => ∀ memory, r = .ok memory →
        List.Forall₂ Definition.Uncast context.definitions context'.definitions ∧
        context'.options = context.options := by
      refine Pass.run_changes_each rfl (fun _ => rfl) fun d hd others memory => ?_
      obtain ⟨hkept, rank, hranked⟩ := hgraphs d hd
      refine (visitDefinition_progress hkept hranked others).imp fun r v hend _ => ?_
      obtain ⟨-, moved, hprogress⟩ := hend
      exact hprogress.uncast
    exact ⟨hok, (hchanges () hok).1⟩

/-- A bit with a name, as a truth value and then with sixteen bits. -/
def namedBit : Definition where
  name := "f"
  role := .function
  behavior :=
    ([.add (.const (Constant.ofInt 1 (.uint 1))), .add (.binding ⟨0⟩ "x"),
      .add (.typeCast ⟨1⟩ .bool), .add (.typeCast ⟨2⟩ (.uint 16)), .add (.ret ⟨3⟩)] :
        List Move).foldl
      (fun g move => move.after g) (.empty "f")

/-- Two rules have an answer for the first cast, and the first of them is chosen; then the second
cast widens the bit itself. -/
theorem elimination_total_namedBit :
    namedBit.behavior.Reachable ∧ namedBit.behavior.Acyclic ∧
    namedBit.behavior.members = [⟨0⟩, ⟨1⟩, ⟨2⟩] ++ ⟨3⟩ :: [⟨4⟩] ∧
    namedBit.behavior.kind? ⟨3⟩ = some .typeCast ∧
    ((pass.visitor.visitNodes [] [⟨0⟩, ⟨1⟩, ⟨2⟩]).Ends ⟨(), namedBit⟩ fun r v =>
      r = .ok () ∧ Decides [] ⟨3⟩ v ∧
      v.definition.behavior.member? ⟨3⟩ = some (.typeCast ⟨1⟩ (.uint 16))) ∧
    pass.run.Ends { definitions := [namedBit] } fun r context => r = .ok () ∧
      List.Forall₂ Definition.Uncast [namedBit] context.definitions := by
  have hreachable : namedBit.behavior.Reachable := Graph.reachable_foldl "f" _
  have hacyclic : namedBit.behavior.Acyclic := Graph.acyclic_of_creation (by cbv)
  have hmembers : namedBit.behavior.members = [⟨0⟩, ⟨1⟩, ⟨2⟩] ++ ⟨3⟩ :: [⟨4⟩] := by cbv
  have hcast : namedBit.behavior.kind? ⟨3⟩ = some .typeCast := by cbv
  obtain ⟨hgraphs, hrun⟩ := @elimination_total { definitions := [namedBit] }
    (by simpa using hreachable) (by simpa using hacyclic)
  obtain ⟨hresult, hdecides⟩ := (hgraphs namedBit (by simp)).2 [] _ ⟨3⟩ _ hmembers hcast
  exact ⟨hreachable, hacyclic, hmembers, hcast, ⟨hresult, hdecides, by cbv⟩, hrun⟩

end Context

end BehaviorGraph
