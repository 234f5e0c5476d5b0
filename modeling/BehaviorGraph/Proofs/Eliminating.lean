/-
# Eliminating casts

A run of the pass visits the members in the order in which they were created, and every cast it
visits is the first of those left.  One visit exchanges the cast for what renders it
(`changes_render`), so the run ends without casts, and each member comes to what it came to before
with casts rendered by the types they see (`Progress`).

That a cast is the first one left matters for what it sees: the type of its operand is computed
with all casts in front of it gone and all behind it in place, and this is how `Graph.seenType` was
defined on the graph in the beginning.  So the values are compared for that reading of the graph
(`Assignment.evalRecast`), which every elimination keeps, and only in the end, when no cast is
left, is it evaluation (`Progress.eval_eq`).
-/
import BehaviorGraph.Pass.CastElimination
import BehaviorGraph.Proofs.Histories
import BehaviorGraph.Proofs.Rendering
import BehaviorGraph.Proofs.Visiting

namespace BehaviorGraph

open CastElimination

variable {g g' : Graph} {id value cast new : NodeId} {payload : Payload} {source type : ValueType}
  {rank : NodeId → Nat}

/-! ## 1. What the rules answer -/

/-- A rule for casts without an answer leaves the cast to the rules behind it. -/
theorem firstAnswer_of_none {name : String}
    {answer : NodeId → ValueType → ValueType → Option (Run Abort Graph Action)}
    {rest : List Rule} {Q : Except Abort Action → Graph → Prop}
    (hcast : castTypes g id = some (value, source, type))
    (hanswer : answer value source type = none)
    (h : (Rule.firstAnswer id .typeCast rest).Ends g Q) :
    (Rule.firstAnswer id .typeCast (castRule name answer :: rest)).Ends g Q := by
  rw [Rule.firstAnswer, if_pos (by simp [castRule, Filter.admits]), Run.ends_bind]
  simp only [castRule]
  rw [Run.ends_bind, Run.ends_state]
  simp only [hcast, Option.bind_some, hanswer]
  rw [Run.ends_pure]
  simpa using h

/-- The first answer is the one that counts. -/
theorem firstAnswer_of_some {name : String}
    {answer : NodeId → ValueType → ValueType → Option (Run Abort Graph Action)}
    {rest : List Rule} {Q : Except Abort Action → Graph → Prop} {m : Run Abort Graph Action}
    (hcast : castTypes g id = some (value, source, type))
    (hanswer : answer value source type = some m)
    (h : m.Ends g fun r g' => r ≠ .ok .proceed ∧ Q r g') :
    (Rule.firstAnswer id .typeCast (castRule name answer :: rest)).Ends g Q := by
  rw [Rule.firstAnswer, if_pos (by simp [castRule, Filter.admits]), Run.ends_bind]
  simp only [castRule]
  rw [Run.ends_bind, Run.ends_state]
  simp only [hcast, Option.bind_some, hanswer]
  refine h.imp fun r g' hend => ?_
  cases r with
  | error abort => exact hend.2
  | ok action =>
    have hne : action ≠ .proceed := fun heq => hend.1 (heq ▸ rfl)
    simp only [if_neg hne]
    rw [Run.ends_bind, Run.ends_state]
    simp only
    rw [Run.ends_bind, Run.ends_log]
    exact hend.2

/-- The operation a cast stands for, as the rules together answer. -/
def render (value : NodeId) (source type : ValueType) : Run Abort Graph Action :=
  if source.width = type.width then pure (.change value)
  else if type = .bool then do
    let zero ← editing (Graph.add (.const (Constant.ofInt 0 source)))
    changeTo (.builtInCall [value, zero] .neq .bool)
  else if type.width < source.width then changeTo (.truncate value type)
  else changeTo (if source.isSigned then .signExtend value type else .zeroExtend value type)

/-- **Every cast of a value with a type has an answer.** -/
theorem visit_of_render {Q : Except Abort Action → Graph → Prop}
    (hmember : g.member? id = some (.typeCast value type)) (hsource : g.typeOf value = some source)
    (h : (render value source type).Ends g fun r g' => r ≠ .ok .proceed ∧ Q r g') :
    (Rule.visit rules id).Ends g Q := by
  have hcast : castTypes g id = some (value, source, type) := by
    rw [castTypes, Graph.payload?_of_member? hmember]
    simp [hsource]
  rw [Rule.visit, Run.ends_bind, ends_payloadOf hmember]
  show (Rule.firstAnswer id .typeCast [sameWidth, toBool, narrow, widen]).Ends g Q
  unfold render at h
  -- The operation and the rules decide by the same questions in the same order, so each branch is
  -- one more rule passed over.
  split at h
  · rename_i hsame
    exact firstAnswer_of_some hcast (by simp [ValueType.isTrivialCastTo, hsame]) h
  · rename_i hwidth
    refine firstAnswer_of_none hcast (by simp [ValueType.isTrivialCastTo, hwidth]) ?_
    split at h
    · rename_i hbool
      exact firstAnswer_of_some hcast (if_pos hbool) h
    · rename_i hbool
      refine firstAnswer_of_none hcast (if_neg hbool) ?_
      split at h
      · rename_i hnarrow
        exact firstAnswer_of_some hcast (if_pos hnarrow) h
      · rename_i hnarrow
        refine firstAnswer_of_none hcast (if_neg hnarrow) ?_
        exact firstAnswer_of_some hcast (if_pos (by omega)) h

/-! ## 2. One elimination -/

/-- A run that answers with an action, which is then performed on `cast` and gives a graph with
`P`. -/
def Changes (m : Run Abort Graph Action) (g : Graph) (cast : NodeId) (P : Graph → Prop) : Prop :=
  m.Ends g fun r between => ∃ action, r = .ok action ∧ action ≠ .proceed ∧
    (action.perform cast).Ends between fun r g' => r = .ok true ∧ P g'

/-- A cast is exchanged for a new node. -/
theorem changes_changeTo (h : g.Kept) (hranked : g.Ranked rank)
    (hcast : g.member? cast = some (.typeCast value type))
    (hkind : payload.kind.isA .value = true) (hunique : payload.kind.isUnique = false)
    (hoffers : ∀ target ∈ payload.inputEdges, g.Offers target .value)
    (hreads : ∀ target ∈ payload.inputEdges, rank target < rank cast) :
    Changes (changeTo payload) g cast fun g' =>
      g.Superseded cast payload g' ∧ ∃ rank', g'.Ranked rank' := by
  unfold Changes
  rw [changeTo, Run.ends_bind, ends_editing]
  show ∃ action, (Except.ok (Action.change ⟨g.nodes.size⟩) : Except Abort Action) = .ok action ∧
    action ≠ .proceed ∧ (action.perform cast).Ends (g.push payload) _
  refine ⟨_, rfl, by simp, perform_change ?_⟩
  refine (Graph.replace_created h hranked hcast rfl hkind hunique hoffers hreads).imp
    fun r g' hend => ?_
  exact ⟨⟨_, hend.1⟩, rfl, hend.2⟩

/-- A cast that was exchanged for a new node in a graph with more members, all of them constants,
was eliminated. -/
theorem elimination_of_superseded {between : Graph} (hsize : g.nodes.size ≤ between.nodes.size)
    (hstay : ∀ {id payload}, g.member? id = some payload → between.member? id = some payload)
    (hfresh : ∀ {id payload}, between.member? id = some payload → g.member? id = none →
      g.nodes.size ≤ id.index ∧ payload.kind = .const)
    (hframed : g.Framed between) (hsuperseded : between.Superseded cast payload g')
    (hranked : ∃ rank', g'.Ranked rank') (hkind : payload.kind ≠ .typeCast)
    (hrendered : g'.Rendered value source type ⟨between.nodes.size⟩) :
    g.Elimination cast value source type ⟨between.nodes.size⟩ g' := by
  refine ⟨hsuperseded.kept, hranked, by rw [hsuperseded.size]; omega, hsuperseded.gone, ?_, ?_,
    hrendered, hframed.trans hsuperseded.framed⟩
  · exact fun hne hmember => hsuperseded.member? hne (hstay hmember)
  · intro id found hfound hnone
    -- New is the node that renders the cast, and the constants that were new before.
    by_cases hnew : id = ⟨between.nodes.size⟩
    · subst hnew
      rw [hsuperseded.new] at hfound
      obtain rfl := Option.some.inj hfound
      exact ⟨hsize, hkind, Or.inl rfl⟩
    · obtain ⟨payload', hmember⟩ := hsuperseded.only hfound hnew
      obtain ⟨hindex, hconst⟩ := hfresh hmember hnone
      have hne : id ≠ cast := by
        rintro rfl
        rw [hsuperseded.gone] at hfound
        exact absurd hfound (by simp)
      rw [hsuperseded.member? hne hmember] at hfound
      obtain rfl := Option.some.inj hfound
      rw [Payload.kind_mapEdges, hconst]
      exact ⟨hindex, by simp, Or.inr rfl⟩

/-- What the graph satisfies in the end may be weakened. -/
theorem Changes.imp {m : Run Abort Graph Action} {P P' : Graph → Prop} (h : Changes m g cast P)
    (himp : ∀ g', P g' → P' g') : Changes m g cast P' := by
  refine Run.Ends.imp h fun r between hend => ?_
  obtain ⟨action, hr, hne, hperform⟩ := hend
  exact ⟨action, hr, hne, hperform.imp fun r g' hend => ⟨hend.1, himp g' hend.2⟩⟩

/-- A cast between types of one width is exchanged for its operand. -/
theorem changes_same (h : g.Kept) (hranked : g.Ranked rank)
    (hcast : g.member? cast = some (.typeCast value type)) (hwidth : source.width = type.width) :
    Changes (pure (.change value)) g cast fun g' =>
      ∃ new, g.Elimination cast value source type new g' := by
  have hin : value ∈ (Payload.typeCast value type).inputEdges :=
    Payload.value_mem_inputEdges rfl
  have hlt := hranked.falls hcast value hin
  obtain ⟨found, hfound, hkind⟩ := h.value_of_mem_inputEdges hcast rfl hin
  -- The operand ranks below the cast, so exchanging the one for the other keeps the ranks.
  have hne : value ≠ cast := by
    rintro rfl
    omega
  show ∃ action, (Except.ok (Action.change value) : Except Abort Action) = .ok action ∧
    action ≠ .proceed ∧ (action.perform cast).Ends g _
  refine ⟨_, rfl, by simp, perform_change ?_⟩
  refine (Graph.replace_member h hranked hcast rfl hfound hkind hne (by omega)).imp
    fun r g' hend => ?_
  obtain ⟨hr, hexchanged, hranked'⟩ := hend
  refine ⟨⟨_, hr⟩, rfl, value, hexchanged.kept, ⟨rank, hranked'⟩, by rw [hexchanged.size],
    hexchanged.gone, hexchanged.member?_of_ne, ?_, .same hwidth, hexchanged.framed⟩
  intro id payload hmember hnone
  rw [hexchanged.member?, hnone] at hmember
  split at hmember <;> exact absurd hmember (by simp)

/-- A cast is exchanged for a new node that reads its operand alone. -/
theorem changes_unary (h : g.Kept) (hranked : g.Ranked rank)
    (hcast : g.member? cast = some (.typeCast value type))
    (hkind : payload.kind.isA .value = true) (hunique : payload.kind.isUnique = false)
    (hslots : payload.inputSlots = [.required "value" .value value])
    (hother : payload.kind ≠ .typeCast)
    (hrendered : ∀ {g' : Graph} {new}, g'.member? new = some payload →
      g'.Rendered value source type new) :
    Changes (changeTo payload) g cast fun g' =>
      ∃ new, g.Elimination cast value source type new g' := by
  have hin : value ∈ (Payload.typeCast value type).inputEdges :=
    Payload.value_mem_inputEdges rfl
  have hlt := hranked.falls hcast value hin
  have hoffers : g.Offers value .value := h.value_of_mem_inputEdges hcast rfl hin
  have hedges : ∀ target ∈ payload.inputEdges, target = value := fun target htarget =>
    (Payload.mem_inputEdges_of_value hslots).mp htarget
  refine (changes_changeTo h hranked hcast hkind hunique (fun target htarget => ?_)
    fun target htarget => ?_).imp fun g' hend => ?_
  · rw [hedges target htarget]
    exact hoffers
  · rw [hedges target htarget]
    exact hlt
  · obtain ⟨hsuperseded, hranked'⟩ := hend
    refine ⟨_, elimination_of_superseded (Nat.le_refl _) id (fun hmember hnone => ?_)
      (Graph.Framed.refl g) hsuperseded hranked' hother (hrendered hsuperseded.new)⟩
    rw [hnone] at hmember
    exact absurd hmember (by simp)

/-- A cast to a truth value is exchanged for a comparison with a zero.  The zero may be new, or a
member that is there already, of whatever rank; it reads nothing, so its rank can be lowered. -/
theorem changes_toBool (h : g.Kept) (hranked : g.Ranked rank)
    (hcast : g.member? cast = some (.typeCast value type)) (hwidth : source.width ≠ type.width)
    (hbool : type = .bool) :
    Changes (do
        let zero ← editing (Graph.add (.const (Constant.ofInt 0 source)))
        changeTo (.builtInCall [value, zero] .neq .bool)) g cast fun g' =>
      ∃ new, g.Elimination cast value source type new g' := by
  have hin : value ∈ (Payload.typeCast value type).inputEdges :=
    Payload.value_mem_inputEdges rfl
  have hlt := hranked.falls hcast value hin
  have hbound := hranked.bounded hcast
  have hoffers : g.Offers value .value := h.value_of_mem_inputEdges hcast rfl hin
  unfold Changes
  rw [Run.ends_bind, ends_editing]
  refine (Graph.add_joined h rfl).imp fun r between hend => ?_
  obtain ⟨zero, rfl, hjoined⟩ := hend
  show Changes (changeTo (.builtInCall [value, zero] .neq .bool)) between cast fun g' =>
    ∃ new, g.Elimination cast value source type new g'
  have hcast' := hjoined.member? hcast
  have hzero : zero ≠ cast := by
    rintro rfl
    rw [hjoined.new] at hcast'
    exact absurd hcast' (by simp)
  have hedges : ∀ target ∈ (Payload.builtInCall [value, zero] .neq .bool).inputEdges,
      target = value ∨ target = zero := by
    intro target htarget
    simpa using htarget
  refine (changes_changeTo hjoined.kept (hjoined.ranked hranked) hcast' rfl rfl ?_ ?_).imp
    fun g' hend => ?_
  · intro target htarget
    rcases hedges target htarget with rfl | rfl
    · obtain ⟨found, hfound, hkind⟩ := hoffers
      exact ⟨found, hjoined.member? hfound, hkind⟩
    · exact ⟨_, hjoined.new, rfl⟩
  · intro target htarget
    -- In the ranks of the graph between, the zero is at the bottom.
    simp only [if_neg (Ne.symm hzero)]
    split
    · omega
    · rename_i hne
      rcases hedges target htarget with rfl | rfl
      · exact hlt
      · exact absurd rfl hne
  · obtain ⟨hsuperseded, hranked'⟩ := hend
    refine ⟨_, elimination_of_superseded (by rw [hjoined.size]; omega) hjoined.member? ?_
      hjoined.framed hsuperseded hranked' (by simp [Payload.kind]) (.toBool hwidth hbool
        hsuperseded.new (hsuperseded.member? hzero hjoined.new))⟩
    intro id payload hmember hnone
    obtain ⟨rfl, hindex⟩ := hjoined.only hmember hnone
    exact ⟨hindex, rfl⟩

/-- **A cast of a value with a type is eliminated, whatever the types are.** -/
theorem changes_render (h : g.Kept) (hranked : g.Ranked rank)
    (hcast : g.member? cast = some (.typeCast value type)) (source : ValueType) :
    Changes (render value source type) g cast fun g' =>
      ∃ new, g.Elimination cast value source type new g' := by
  unfold render
  split
  · rename_i hwidth
    exact changes_same h hranked hcast hwidth
  · rename_i hwidth
    split
    · rename_i hbool
      exact changes_toBool h hranked hcast hwidth hbool
    · rename_i hbool
      split
      · rename_i hnarrow
        exact changes_unary h hranked hcast rfl rfl rfl (by simp [Payload.kind])
          fun hnew => .narrow hbool hnarrow hnew
      · rename_i hnarrow
        have hwiden : source.width < type.width := by omega
        refine changes_unary h hranked hcast ?_ ?_ ?_ ?_ fun hnew => .widen hbool hwiden hnew
        all_goals cases source.isSigned <;> simp [Payload.kind, Payload.inputSlots] <;> rfl

/-! ## 3. One visit -/

variable {v : VisitState Unit} {others : List Definition} {rest : List NodeId}
  {Q : Except Abort Unit → VisitState Unit → Prop}

/-- A member that is no cast is passed by. -/
theorem visitNodes_cons_of_ne (hmember : v.definition.behavior.member? id = some payload)
    (hkind : payload.kind ≠ .typeCast) (hrest : (pass.visitor.visitNodes others rest).Ends v Q) :
    (pass.visitor.visitNodes others (id :: rest)).Ends v Q := by
  have hhook : payload.kind.hooks.findSome? pass.visitor.hook = none := by
    cases hpayload : payload.kind <;> first | rfl | exact absurd hpayload hkind
  rw [ends_visitNodes_cons (Graph.isActive_iff.mpr ⟨payload, hmember⟩)]
  exact visitStep_of_none hmember hhook hrest

/-- **The visit of a cast eliminates it.** -/
theorem visitStep_cast (h : v.definition.behavior.Kept)
    (hranked : v.definition.behavior.Ranked rank)
    (hcast : v.definition.behavior.member? cast = some (.typeCast value type))
    (hsource : v.definition.behavior.typeOf value = some source) :
    (pass.visitor.visitStep others cast).Ends v fun r v' => r = .ok true ∧
      ∃ new g', v.definition.behavior.Elimination cast value source type new g' ∧
        v' = v.withGraph g' := by
  have hhook : (Payload.typeCast value type).kind.hooks.findSome? pass.visitor.hook
      = some fun _ id => visit id := rfl
  rw [Visitor.visitStep, Run.ends_bind, ends_visitNode_of_hook hcast hhook]
  rw [visit, Run.ends_bind, Visiting.graph, Run.ends_read]
  simp only
  rw [Run.ends_bind, ends_onGraph]
  refine visit_of_render hcast hsource ?_
  refine Run.Ends.imp (changes_render h hranked hcast source) fun r between hend => ?_
  obtain ⟨action, rfl, hne, hperform⟩ := hend
  refine ⟨fun heq => hne (Except.ok.inj heq), ?_⟩
  cases action with
  | proceed => exact absurd rfl hne
  | _ =>
    simp only
    rw [Run.ends_pure]
    simp only
    rw [ends_onGraph]
    refine hperform.imp fun r g' hend => ?_
    obtain ⟨rfl, new, helimination⟩ := hend
    exact ⟨rfl, new, g', helimination, rfl⟩

/-- A cast is eliminated before the next member is visited. -/
theorem visitNodes_cons_cast (h : v.definition.behavior.Kept)
    (hranked : v.definition.behavior.Ranked rank)
    (hcast : v.definition.behavior.member? cast = some (.typeCast value type))
    (hsource : v.definition.behavior.typeOf value = some source)
    (hrest : ∀ new g', v.definition.behavior.Elimination cast value source type new g' →
      (pass.visitor.visitNodes others rest).Ends (v.withGraph g') Q) :
    (pass.visitor.visitNodes others (cast :: rest)).Ends v Q := by
  rw [ends_visitNodes_cons (Graph.isActive_iff.mpr ⟨_, hcast⟩)]
  refine (visitStep_cast h hranked hcast hsource).imp fun r v' hend => ?_
  obtain ⟨rfl, new, g', helimination, rfl⟩ := hend
  exact hrest new g' helimination

/-! ## 4. A whole run -/

/-- **What holds of a graph while casts are eliminated**, when the members `rest` of the graph
`start` are still to be visited and `moved` tells where the values of `start` are now. -/
structure Progress (start g : Graph) (moved : NodeId → NodeId) (rest : List NodeId) : Prop where
  kept : g.Kept
  ranked : ∃ rank, g.Ranked rank
  size : start.nodes.size ≤ g.nodes.size
  /-- The casts that are left will be visited. -/
  casts : ∀ {id value type}, g.member? id = some (.typeCast value type) → id ∈ rest
  /-- Every other member is still there, its edges moved. -/
  stays : ∀ {id payload}, start.member? id = some payload →
    payload.kind ≠ .typeCast ∨ id ∈ rest → g.member? id = some (payload.mapEdges moved)
  /-- The casts that were visited are gone. -/
  gone : ∀ {id payload}, start.member? id = some payload → payload.kind = .typeCast → id ∉ rest →
    g.member? id = none
  lands : ∀ {id payload}, start.member? id = some payload →
    ∃ payload', g.member? (moved id) = some payload'
  /-- With casts rendered by the types they see, every value is where it was moved. -/
  values : ∀ (ρ : Assignment) {id payload}, start.member? id = some payload →
    ρ.evalRecast start id = ρ.evalRecast g (moved id)

variable {start : Graph} {moved : NodeId → NodeId}

/-- In the beginning all members are still to be visited and nothing has moved. -/
theorem progress_start (h : start.Kept) (hranked : start.Ranked rank) :
    Progress start start (fun id => id) start.members := by
  refine ⟨h, ⟨rank, hranked⟩, Nat.le_refl _, ?_, ?_, ?_, fun hmember => ⟨_, hmember⟩,
    fun _ _ _ _ => rfl⟩
  · exact fun hmember => Graph.mem_members_iff.mpr ⟨_, hmember⟩
  · intro id payload hmember _
    rw [hmember, Payload.mapEdges_eq_self fun _ _ => rfl]
  · intro id payload hmember _ hnot
    exact absurd (Graph.mem_members_iff.mpr ⟨payload, hmember⟩) hnot

/-- Passing by a member that is no cast changes nothing. -/
theorem Progress.skip (h : Progress start g moved (id :: rest))
    (hmember : start.member? id = some payload) (hkind : payload.kind ≠ .typeCast) :
    Progress start g moved rest := by
  have hstays := h.stays hmember (Or.inl hkind)
  refine ⟨h.kept, h.ranked, h.size, ?_, ?_, ?_, h.lands, h.values⟩
  · intro other value type hcast
    refine (List.mem_cons.mp (h.casts hcast)).resolve_left ?_
    rintro rfl
    rw [hstays] at hcast
    have hsame := congrArg Payload.kind (Option.some.inj hcast)
    rw [Payload.kind_mapEdges] at hsame
    exact hkind hsame
  · intro other found hfound hstay
    exact h.stays hfound (hstay.imp_right (List.mem_cons_of_mem id))
  · intro other found hfound hcast hnot
    refine h.gone hfound hcast ?_
    intro hin
    rcases List.mem_cons.mp hin with rfl | hin
    · rw [hmember] at hfound
      obtain rfl := Option.some.inj hfound
      exact hkind hcast
    · exact hnot hin

/-- **Eliminating the first cast moves its value.** -/
theorem Progress.eliminate (h : Progress start g moved (cast :: rest))
    (hstart : start.member? cast = some payload) (hkind : payload.kind = .typeCast)
    (hsorted : (cast :: rest).Pairwise fun a b => a.index < b.index)
    (hcast : g.member? cast = some (.typeCast value type)) (hsource : g.typeOf value = some source)
    (he : g.Elimination cast value source type new g') :
    Progress start g' (fun id => swap cast new (moved id)) rest := by
  obtain ⟨rank, hranked⟩ := h.ranked
  have hlater : ∀ {id}, id ∈ rest → cast.index < id.index :=
    fun hin => List.rel_of_pairwise_cons hsorted hin
  -- Members are visited in order, so a cast that is left comes behind this one.
  have hfirst : ∀ {id value type}, g.member? id = some (.typeCast value type) →
      cast.index ≤ id.index := by
    intro id value type hmember
    rcases List.mem_cons.mp (h.casts hmember) with rfl | hin
    · exact Nat.le_refl _
    · exact Nat.le_of_lt (hlater hin)
  have hnot : cast ∉ rest := fun hin => Nat.lt_irrefl _ (hlater hin)
  refine ⟨he.kept, he.ranked, Nat.le_trans h.size he.size, ?_, ?_, ?_, ?_, ?_⟩
  -- No cast is new, and the others were to be visited before.
  · intro id operand target hmember
    have hne : id ≠ cast := by
      rintro rfl
      rw [he.gone] at hmember
      exact absurd hmember (by simp)
    cases hbefore : g.member? id with
    | none => exact absurd rfl (he.fresh hmember hbefore).2.1
    | some found =>
      rw [he.member? hne hbefore] at hmember
      have hsame := congrArg Payload.kind (Option.some.inj hmember)
      rw [Payload.kind_mapEdges] at hsame
      cases found with
      | typeCast operand' target' =>
        exact (List.mem_cons.mp (h.casts hbefore)).resolve_left hne
      | _ => exact Kind.noConfusion hsame
  · intro id found hfound hstay
    have hne : id ≠ cast := by
      rintro rfl
      rw [hstart] at hfound
      obtain rfl := Option.some.inj hfound
      exact hstay.elim (fun hother => hother hkind) hnot
    rw [he.member? hne (h.stays hfound (hstay.imp_right (List.mem_cons_of_mem cast))),
      Payload.mapEdges_mapEdges]
  -- A visited cast that came back would be new, and new nodes lie behind all of `start`.
  · intro id found hfound hcastKind hnotin
    by_cases hne : id = cast
    · rw [hne]
      exact he.gone
    · have hbefore := h.gone hfound hcastKind fun hin =>
        (List.mem_cons.mp hin).elim hne hnotin
      cases hafter : g'.member? id with
      | none => rfl
      | some new =>
        obtain ⟨node, hnode, -, -⟩ := Graph.member?_eq_some_iff.mp hfound
        have hlt := Graph.lt_size_of_node? hnode
        have hge := (he.fresh hafter hbefore).1
        have hsize := h.size
        omega
  · intro id found hfound
    obtain ⟨landed, hlanded⟩ := h.lands hfound
    exact he.exists_member? h.kept hranked hcast hlanded
  -- The only step that speaks of values: the first cast is rendered by the type it sees.
  · intro ρ id found hfound
    obtain ⟨landed, hlanded⟩ := h.lands hfound
    rw [h.values ρ hfound]
    exact he.evalRecast_eq h.kept hranked hcast hsource hfirst ρ hlanded

/-- **A run eliminates all the casts it visits**, and those behind are left for later.  By
induction on the members that are visited; a cast among them has an operand of some type, as every
value has.
-/
theorem visitNodes_progress {done : List NodeId}
    (h : Progress start v.definition.behavior moved (done ++ rest))
    (hmembers : ∀ id ∈ done, ∃ payload, start.member? id = some payload)
    (hsorted : (done ++ rest).Pairwise fun a b => a.index < b.index) :
    (pass.visitor.visitNodes others done).Ends v fun r v' =>
      r = .ok () ∧ ∃ moved', Progress start v'.definition.behavior moved' rest := by
  induction done generalizing v moved with
  | nil => exact ⟨rfl, moved, h⟩
  | cons id done ih =>
    obtain ⟨⟨payload, hmember⟩, hmembers'⟩ := List.forall_mem_cons.mp hmembers
    have hstays := h.stays hmember (Or.inr (by simp))
    by_cases hkind : payload.kind = .typeCast
    · obtain ⟨rank, hranked⟩ := h.ranked
      cases payload with
      | typeCast operand target =>
        obtain ⟨found, hfound, hvalue⟩ := h.kept.value_of_mem_inputEdges hstays rfl
          (Payload.value_mem_inputEdges rfl : moved operand ∈ _)
        obtain ⟨source, hsource, -⟩ := Graph.exists_typeOf h.kept hranked hfound hvalue
        refine visitNodes_cons_cast h.kept hranked hstays hsource fun new g' he => ?_
        exact ih (h.eliminate hmember hkind hsorted hstays hsource he) hmembers'
          (List.Pairwise.of_cons hsorted)
      | _ => exact Kind.noConfusion hkind
    · refine visitNodes_cons_of_ne hstays (by rwa [Payload.kind_mapEdges]) ?_
      exact ih (h.skip hmember hkind) hmembers' (List.Pairwise.of_cons hsorted)

/-- **A whole run of the pass succeeds and leaves no cast.** -/
theorem visitDefinition_progress {d : Definition} (h : d.behavior.Kept)
    (hranked : d.behavior.Ranked rank) (others : List Definition) :
    (pass.visitor.visitDefinition others).Ends ⟨(), d⟩ fun r v =>
      r = .ok () ∧ ∃ moved, Progress d.behavior v.definition.behavior moved [] := by
  have hprogress :
    Progress d.behavior (⟨(), d⟩ : VisitState Unit).definition.behavior (fun id => id)
      d.behavior.members := progress_start h hranked
  exact visitDefinition_of_nodes (Q := fun r d' => r = .ok () ∧ ∃ moved,
      Progress d.behavior d'.behavior moved []) rfl rfl (fun v => ⟨⟨_, rfl⟩, rfl⟩)
    (visitNodes_progress (by rwa [List.append_nil]) (fun id hid => Graph.mem_members_iff.mp hid)
      (by rw [List.append_nil]; exact d.behavior.pairwise_members))

/-! ## 5. What the pass keeps -/

/-- At the end the members of before that are left are those that were no casts. -/
theorem Progress.isActive_iff (h : Progress start g moved [])
    (hactive : start.isActive id = true) :
    g.isActive id = true ↔ start.kind? id ≠ some .typeCast := by
  obtain ⟨payload, hmember⟩ := Graph.isActive_iff.mp hactive
  rw [Graph.kind?_of_member? hmember]
  constructor
  · intro hactive' hcast
    obtain ⟨payload', hmember'⟩ := Graph.isActive_iff.mp hactive'
    rw [h.gone hmember (Option.some.inj hcast) (by simp)] at hmember'
    exact absurd hmember' (by simp)
  · intro hother
    exact Graph.isActive_iff.mpr ⟨_, h.stays hmember (Or.inl fun heq => hother (heq ▸ rfl))⟩

/-- Their inputs read what they read before, moved. -/
theorem Progress.inputs_eq (h : Progress start g moved []) (hactive : start.isActive id = true)
    (hactive' : g.isActive id = true) : g.inputs id = (start.inputs id).map (Option.map moved) := by
  obtain ⟨payload, hmember⟩ := Graph.isActive_iff.mp hactive
  have hkind : payload.kind ≠ .typeCast := by
    have hother := (h.isActive_iff hactive).mp hactive'
    rw [Graph.kind?_of_member? hmember] at hother
    exact fun heq => hother (congrArg some heq)
  rw [Graph.inputs, Graph.inputs, Graph.payload?_of_member? hmember,
    Graph.payload?_of_member? (h.stays hmember (Or.inl hkind))]
  exact Payload.inputs_mapEdges moved payload

/-- **Evaluation in the end is evaluation in the beginning with casts rendered by the types they
see.** -/
theorem Progress.eval_eq (h : Progress start g moved []) (ρ : Assignment)
    (hmember : start.member? id = some payload) : ρ.eval g (moved id) = ρ.evalRecast start id := by
  have hnone : ∀ {id value type}, g.member? id ≠ some (.typeCast value type) :=
    fun hcast => absurd (h.casts hcast) (by simp)
  rw [h.values ρ hmember, ρ.evalRecast_eq_eval hnone]

namespace Graph

/-- **Eliminating the casts of a graph without cycles succeeds, leaves every other member, and
keeps the bits of what an input reads exactly if rendering casts by the types they see does.**

`moved` tells where the values are afterwards.  What an input reads comes to a constant before and
after, of one width, if the graph is consistent; and the bits are the same if in addition no cast
between types of one width, and no choice between cases, changes a sign. -/
theorem Reachable.elimination_keeps_bits_iff {d : Definition} (h : d.behavior.Reachable)
    (hacyclic : d.behavior.Acyclic) (others : List Definition) :
    let o := CastElimination.pass.visitor.visitDefinition others ⟨(), d⟩
    let g := d.behavior
    let g' := o.state.definition.behavior
    o.result = .ok () ∧
    (∀ id, g.isActive id = true → (g'.isActive id = true ↔ g.kind? id ≠ some .typeCast)) ∧
    ∃ moved : NodeId → NodeId,
      (∀ id, g.isActive id = true → g'.isActive id = true →
        g'.inputs id = (g.inputs id).map (Option.map moved)) ∧
      (∀ target, g.isActive target = true → ∀ ρ : Assignment,
        ρ.eval g' (moved target) = ρ.evalRecast g target ∧
        (SameBits (ρ.eval g target) (ρ.eval g' (moved target))
          ↔ SameBits (ρ.eval g target) (ρ.evalRecast g target))) ∧
      (g.checkConsistency.hasErrors = false → g.Sized →
        ∀ target, g.isActive target = true → g.isA target .value = true → ∀ ρ : Assignment,
          (∃ c c', ρ.eval g target = some c ∧ ρ.eval g' (moved target) = some c' ∧
            c.type.width = c'.type.width) ∧
          (g.KeepsSigns → SameBits (ρ.eval g target) (ρ.eval g' (moved target)))) := by
  have hkept := h.kept
  obtain ⟨rank, hranked⟩ := hacyclic.exists_ranked hkept
  obtain ⟨hresult, moved, hprogress⟩ := visitDefinition_progress hkept hranked others
  refine ⟨hresult, fun id => hprogress.isActive_iff, moved, fun id => hprogress.inputs_eq, ?_, ?_⟩
  · intro target hactive ρ
    obtain ⟨payload, hmember⟩ := Graph.isActive_iff.mp hactive
    rw [hprogress.eval_eq ρ hmember]
    exact ⟨rfl, Iff.rfl⟩
  · intro hconsistent hsized target hactive hvalue ρ
    obtain ⟨payload, hmember⟩ := Graph.isActive_iff.mp hactive
    have hkinds := checkKinds_of_checkConsistency hconsistent
    have hkind : payload.kind.isA .value = true := by
      simpa [isA, kind?_of_member? hmember] using hvalue
    rw [hprogress.eval_eq ρ hmember]
    exact ⟨exists_eval_evalRecast hkept hranked hkinds hsized ρ hmember hkind,
      fun hsigns => sameBits_of_keepsSigns hkept hranked hkinds hsized hsigns ρ hmember hkind⟩

/-- The number 200 of eight bits, read with a sign and then widened to sixteen bits. -/
def widenedSign : Graph :=
  ([.add (.const (Constant.ofInt 200 (.uint 8))), .add (.typeCast ⟨0⟩ (.sint 8)),
    .add (.typeCast ⟨1⟩ (.sint 16)), .add (.ret ⟨2⟩)] : List Move).foldl
      (fun g move => move.after g) (empty "f")

/-- It is -56; but once the cast between types of one width is gone, the number is widened without
a sign and stays 200. -/
theorem elimination_keeps_bits_iff_widenedSign :
    let d : Definition := { name := "f", role := .function, behavior := widenedSign }
    let g' := (CastElimination.pass.visitor.visitDefinition [] ⟨(), d⟩).state.definition.behavior
    widenedSign.Reachable ∧ widenedSign.Acyclic ∧ widenedSign.checkConsistency.hasErrors = false ∧
    ∃ moved : NodeId → NodeId, g'.inputs ⟨3⟩ = [some (moved ⟨2⟩)] ∧
      ∀ ρ : Assignment, ¬ SameBits (ρ.eval widenedSign ⟨2⟩) (ρ.eval g' (moved ⟨2⟩)) := by
  intro d g'
  have hreachable : widenedSign.Reachable := reachable_foldl "f" _
  have hacyclic : widenedSign.Acyclic := acyclic_of_creation (by cbv)
  obtain ⟨-, hstay, moved, hinputs, hbits, -⟩ :=
    Reachable.elimination_keeps_bits_iff (d := d) hreachable hacyclic []
  have hread : widenedSign.inputs ⟨3⟩ = [some ⟨2⟩] := by cbv
  have hactive : widenedSign.isActive ⟨3⟩ = true := by cbv
  have hkind : widenedSign.kind? ⟨3⟩ = some .ret := by cbv
  refine ⟨hreachable, hacyclic, by cbv, moved, ?_, fun ρ => ?_⟩
  · refine (hinputs ⟨3⟩ hactive ((hstay ⟨3⟩ hactive).mpr ?_)).trans ?_
    · exact fun heq => absurd (hkind.symm.trans heq) (by decide)
    · exact congrArg (List.map (Option.map moved)) hread
  · have hvalue : widenedSign.isActive ⟨2⟩ = true := by cbv
    have heval : ρ.eval widenedSign ⟨2⟩ = some (Constant.ofInt (-56) (.sint 16)) := by cbv
    have hrecast : ρ.evalRecast widenedSign ⟨2⟩ = some (Constant.ofInt 200 (.sint 16)) := by cbv
    intro hsame
    obtain ⟨c, c', hc, hc', -, hbits'⟩ := (hbits ⟨2⟩ hvalue ρ).2.mp hsame
    obtain rfl := Option.some.inj (hc.symm.trans heval)
    obtain rfl := Option.some.inj (hc'.symm.trans hrecast)
    exact absurd hbits' (by decide)

end Graph

end BehaviorGraph
