/-
# Passes that conserve

Eliminating casts, folding constants, merging equal nodes and removing dead values all do the same
kind of thing: they give values up, one after the other, for values of the same width or because
nobody reads them.  One such step does no harm (`Graph.Conserved`), so none of the passes meets a
fault, and **the graph they leave is as consistent as the one they were given**
(`Reachable.passes_conserve`).

What a consistent graph demands of a payload (`Payload.Obeys`) speaks of the widths of what the
node reads and of the kinds of what it has edges to.  The width of a node is its value under an
interpretation (`measuring`), so a step is harmless as soon as what comes in place of a value
measures the same and new nodes obey as well (`Conserved.rewrite`).  Sections 1 to 5 establish just
that for the steps the passes take: a value exchanged for another, a cast eliminated, a node
folded, equal nodes merged, a value deleted.  Section 6 runs the steps.
-/
import BehaviorGraph.Proofs.Eliminating
import BehaviorGraph.Proofs.Folding
import BehaviorGraph.Proofs.Worklists

namespace BehaviorGraph

/-- A payload declares the same type wherever its edges lead. -/
theorem Payload.declaredType_mapEdges (f : NodeId → NodeId) (payload : Payload) :
    (payload.mapEdges f).declaredType = payload.declaredType := by
  cases payload <;> rfl

namespace Graph

variable {start g g' : Graph} {old new id canon cast value : NodeId} {payload found : Payload}
  {source type : ValueType} {rank : NodeId → Nat}

/-! ## 1. Values of one width -/

/-- **Giving a value up for a member of the same width and of no higher rank does no harm.** -/
theorem Conserved.exchange (hc : Conserved start g) (hranked : g.Ranked rank)
    (h : g.Rewritten old new g')
    (honly : ∀ {other payload'}, g'.member? other = some payload' → g.member? other ≠ none)
    (hold : g.member? old = some payload) (hnew : g.member? new = some found) (hne : new ≠ old)
    (hle : rank new ≤ rank old) (hwidth : g.widthOf old = g.widthOf new) : Conserved start g' := by
  have hkept := hc.carried.kept
  have hsame : measuring.value g old = measuring.value g new := by
    rw [← widthOf_eq_value hkept hranked hold, ← widthOf_eq_value hkept hranked hnew, hwidth]
  exact hc.rewrite h (h.standsFor hkept hranked hnew hne hle hsame)
    fun hmember hnone => absurd hnone (honly hmember)

/-! ## 2. Casts -/

namespace Elimination

/-- As a rewriting, eliminating a cast gives the cast up for what stands for it; whatever else is
new is named by `fresh`. -/
theorem rewritten (he : g.Elimination cast value source type new g')
    (hcast : g.member? cast = some (.typeCast value type)) : g.Rewritten cast new g' :=
  ⟨he.kept, he.ranked, he.size, ⟨_, hcast, rfl⟩, he.gone, he.member?,
    fun hmember hnone => (he.fresh hmember hnone).1, he.framed⟩

/-- **What stands for a cast is as wide as the cast.** -/
theorem standsFor (he : g.Elimination cast value source type new g') (h : g.Kept)
    (hranked : g.Ranked rank) (hcast : g.member? cast = some (.typeCast value type))
    (hsource : g.typeOf value = some source) : StandsFor measuring g cast new g' := by
  intro _ payload hpayload hreads
  rw [hcast] at hpayload
  obtain rfl := Option.some.inj hpayload
  obtain ⟨rank', hranked'⟩ := he.ranked
  have hin : value ∈ (Payload.typeCast value type).inputEdges := Payload.value_mem_inputEdges rfl
  have hdeclared : measuring.value g cast = some type.width :=
    Interpretation.value_eq_step h hranked hcast
  rw [hdeclared]
  -- A cast between types of one width is given up for its operand, which was measured before; in
  -- the three other cases a node of the declared type comes in its place.
  cases he.rendered with
  | same hwidth =>
    obtain ⟨found, hfound⟩ := h.member?_of_mem_inputEdges hcast hin
    have hread := hreads _ hin
    rw [swap_operand hranked hcast, ← widthOf_eq_value h hranked hfound, widthOf, hsource,
      Option.map_some, hwidth] at hread
    exact hread
  | toBool _ hbool hnew _ =>
    rw [Interpretation.value_eq_step he.kept hranked' hnew, hbool]
    rfl
  | narrow _ _ hnew =>
    rw [Interpretation.value_eq_step he.kept hranked' hnew]
    rfl
  | widen _ _ hnew =>
    rw [Interpretation.value_eq_step he.kept hranked' hnew]
    cases source.isSigned <;> rfl

/-- The operand keeps its width: it is not the cast, so nothing stands for it, and what it reads
measures what it measured before. -/
theorem widthOf_operand (he : g.Elimination cast value source type new g') (h : g.Kept)
    (hranked : g.Ranked rank) (hcast : g.member? cast = some (.typeCast value type))
    (hsource : g.typeOf value = some source) : g'.widthOf value = some source.width := by
  obtain ⟨rank', hranked'⟩ := he.ranked
  have hin : value ∈ (Payload.typeCast value type).inputEdges := Payload.value_mem_inputEdges rfl
  obtain ⟨found, hfound⟩ := h.member?_of_mem_inputEdges hcast hin
  have hne : value ≠ cast := by
    rintro rfl
    exact Nat.lt_irrefl _ (hranked.falls hcast value hin)
  have hread := (he.rewritten hcast).value_read h hranked (he.standsFor h hranked hcast hsource)
    hcast hin
  rw [swap_of_ne hne] at hread
  rw [widthOf_eq_value he.kept hranked' (he.member? hne hfound), ← hread,
    ← widthOf_eq_value h hranked hfound, widthOf, hsource, Option.map_some]

/-- What is new obeys: the node that renders the cast was chosen by comparing the width of the
operand with the declared one, and the constant it may compare with has no edges. -/
theorem obeys (he : g.Elimination cast value source type new g') (h : g.Kept)
    (hranked : g.Ranked rank) (hcast : g.member? cast = some (.typeCast value type))
    (hsource : g.typeOf value = some source) (hmember : g'.member? id = some payload)
    (hnone : g.member? id = none) : payload.Obeys g'.widthOf g'.kind? := by
  have hwidth := he.widthOf_operand h hranked hcast hsource
  obtain ⟨-, -, rfl | hconst⟩ := he.fresh hmember hnone
  · cases he.rendered with
    | same =>
      -- The operand was there before.
      obtain ⟨found, hfound⟩ := h.member?_of_mem_inputEdges hcast
        (Payload.value_mem_inputEdges rfl : id ∈ (Payload.typeCast id type).inputEdges)
      rw [hnone] at hfound
      exact absurd hfound (by simp)
    | toBool _ _ hnew _ =>
      rw [hnew] at hmember
      obtain rfl := Option.some.inj hmember
      rfl
    | narrow _ hlt hnew =>
      rw [hnew] at hmember
      obtain rfl := Option.some.inj hmember
      intro w hw
      rw [hwidth] at hw
      obtain rfl := Option.some.inj hw
      exact Nat.le_of_lt hlt
    | widen _ hlt hnew =>
      have hfits : Payload.Fits g'.widthOf value (· ≤ type.width) := by
        intro w hw
        rw [hwidth] at hw
        obtain rfl := Option.some.inj hw
        exact Nat.le_of_lt hlt
      rw [hnew] at hmember
      obtain rfl := Option.some.inj hmember
      cases source.isSigned <;> exact hfits
  · exact Payload.obeys_of_isUnique (by rw [hconst]; rfl)

/-- **Eliminating a cast does no harm.** -/
theorem conserved (he : g.Elimination cast value source type new g') (hc : Conserved start g)
    (hcast : g.member? cast = some (.typeCast value type))
    (hsource : g.typeOf value = some source) :
    Conserved start g' := by
  obtain ⟨rank, hranked⟩ := hc.carried.ranked
  have hkept := hc.carried.kept
  exact hc.rewrite (he.rewritten hcast) (he.standsFor hkept hranked hcast hsource)
    fun hmember hnone => he.obeys hkept hranked hcast hsource hmember hnone

end Elimination

/-- Eliminating the casts of a list does no harm.  By induction on the list for any state, since
every visit changes the definition: a node that is gone by then is skipped, a node that is no cast
stays, and a cast has an operand with a type, so its visit is an elimination. -/
theorem visitNodes_casts {v : VisitState Unit} (hc : Conserved start v.definition.behavior)
    (others : List Definition) (ids : List NodeId) :
    (CastElimination.pass.visitor.visitNodes others ids).Ends v fun r v' =>
      r = .ok () ∧ Conserved start v'.definition.behavior := by
  induction ids generalizing v with
  | nil => exact ⟨rfl, hc⟩
  | cons id rest ih =>
    cases hactive : v.definition.behavior.isActive id with
    | false =>
      rw [ends_visitNodes_skip hactive]
      exact ih hc
    | true =>
      obtain ⟨payload, hmember⟩ := isActive_iff.mp hactive
      by_cases hkind : payload.kind = .typeCast
      · obtain ⟨rank, hranked⟩ := hc.carried.ranked
        cases payload with
        | typeCast operand target =>
          obtain ⟨found, hfound, hvalue⟩ := hc.carried.kept.value_of_mem_inputEdges hmember rfl
            (Payload.value_mem_inputEdges rfl : operand ∈ _)
          obtain ⟨source, hsource, -⟩ := exists_typeOf hc.carried.kept hranked hfound hvalue
          refine visitNodes_cons_cast hc.carried.kept hranked hmember hsource fun new g' he => ?_
          exact ih (he.conserved hc hmember hsource)
        | _ => exact Kind.noConfusion hkind
      · exact visitNodes_cons_of_ne hmember hkind (ih hc)

/-! ## 3. Constants -/

open ConstantFolding

/-- A constant that a member becomes has the type the member declares. -/
theorem declaredType_of_foldPayload {c : Constant}
    (hfold : foldPayload g payload = some (.constant c)) : payload.declaredType = some c.type := by
  -- A fold that may fail is a constant only if it succeeded.
  have hconstant : ∀ {c' : Option Constant}, Fold.ofConstant? c' = .constant c → c' = some c := by
    intro c' heq
    cases c' with
    | none => exact Fold.noConfusion heq
    | some c' => exact congrArg some (Fold.constant.inj heq)
  cases payload with
  | builtInCall args op type =>
    obtain ⟨values, -, heval⟩ := Option.bind_eq_some_iff.mp (hconstant (Option.some.inj hfold))
    exact congrArg some (BuiltIn.type_of_eval heval).symm
  | select condition trueCase falseCase type =>
    simp only [foldPayload] at hfold
    split at hfold <;> exact Fold.noConfusion (Option.some.inj hfold)
  | slice operand high low type =>
    simp only [foldPayload] at hfold
    split at hfold
    · obtain ⟨sliced, hsliced, heq⟩ := Option.map_eq_some_iff.mp hfold
      obtain rfl := Fold.constant.inj heq
      exact congrArg some (Constant.type_of_slice? hsliced).symm
    · exact Fold.noConfusion (Option.some.inj hfold)
  | zeroExtend operand type | signExtend operand type | truncate operand type =>
    obtain ⟨c', -, rfl⟩ := Option.map_eq_some_iff.mp (hconstant (Option.some.inj hfold))
    rfl
  | typeCast operand type =>
    obtain ⟨c', -, rfl⟩ := Option.map_eq_some_iff.mp (hconstant (Option.some.inj hfold))
    exact congrArg some (type_convert c' type).symm
  | _ => exact Fold.noConfusion (Option.some.inj hfold)

/-- A member that becomes another is as wide as that one.  Only a choice becomes another node, and
both cases of a choice have to be as wide as it is. -/
theorem widthOf_chosen (h : g.Kept) (hranked : g.Ranked rank) (hlawful : g.Lawful)
    (hmember : g.member? id = some payload) {chosen : NodeId}
    (hfold : foldPayload g payload = some (.node chosen)) : g.widthOf id = g.widthOf chosen := by
  have hin := mem_inputEdges_of_foldPayload hfold
  have hobeys := hlawful hmember
  rw [widthOf_eq_measure h hranked hmember]
  cases payload with
  | select condition trueCase falseCase type =>
    obtain ⟨found, hfound, hvalue⟩ := h.value_of_mem_inputEdges hmember rfl hin
    obtain ⟨declared, hdeclared, -⟩ := exists_typeOf h hranked hfound hvalue
    have hwidth : g.widthOf chosen = some declared.width := by
      rw [widthOf, hdeclared, Option.map_some]
    obtain ⟨-, htrue, hfalse⟩ := hobeys
    have hcase : Payload.Fits g.widthOf chosen (· = type.width) := by
      simp only [foldPayload] at hfold
      split at hfold
      · obtain rfl := Fold.node.inj (Option.some.inj hfold)
        split
        · exact hfalse
        · exact htrue
      · exact Fold.noConfusion (Option.some.inj hfold)
    rw [hwidth, hcase _ hwidth]
    rfl
  -- A slice becomes a constant or stays, and so does all that is left.
  | slice operand high low type =>
    simp only [foldPayload] at hfold
    split at hfold
    · obtain ⟨sliced, -, heq⟩ := Option.map_eq_some_iff.mp hfold
      exact Fold.noConfusion heq
    · exact Fold.noConfusion (Option.some.inj hfold)
  | builtInCall _ _ _ | zeroExtend _ _ | signExtend _ _ | truncate _ _ | typeCast _ _ =>
    have heq := Option.some.inj hfold
    unfold Fold.ofConstant? at heq
    split at heq <;> exact Fold.noConfusion heq
  | _ => exact Fold.noConfusion (Option.some.inj hfold)

/-- **Folding a node does no harm.** -/
theorem Folded.conserved (hfolded : g.Folded id payload g') (hc : Conserved start g)
    (hranked : g.Ranked rank) (hmember : g.member? id = some payload) : Conserved start g' := by
  have hkept := hc.carried.kept
  cases hfolded with
  | keep _ hsame =>
    rw [hsame]
    exact hc
  | @node chosen hfold hrewritten honly =>
    have hin := mem_inputEdges_of_foldPayload hfold
    have hlt := hranked.falls hmember chosen hin
    obtain ⟨found, hfound⟩ := hkept.member?_of_mem_inputEdges hmember hin
    have hne : chosen ≠ id := by
      rintro rfl
      omega
    exact hc.exchange hranked hrewritten honly hmember hfound hne (by omega)
      (widthOf_chosen hkept hranked hc.lawful hmember hfold)
  | @constant c new hfold hrewritten hnew honly =>
    obtain ⟨rank', hranked'⟩ := hrewritten.ranked
    have hconstant : measuring.value g' new = some c.type.width :=
      Interpretation.value_eq_step hrewritten.kept hranked' hnew
    have hsame : measuring.value g id = some c.type.width := by
      have htype := declaredType_of_foldPayload hfold
      rw [Interpretation.value_eq_step hkept hranked hmember]
      cases payload with
      | binding operand name => exact absurd htype (by simp [Payload.declaredType])
      | _ => exact congrArg (Option.map ValueType.width) htype
    refine hc.rewrite hrewritten (fun _ _ _ _ => hsame.trans hconstant.symm) fun hother hnone => ?_
    rw [honly hother hnone]
    exact Payload.obeys_of_isUnique rfl

/-- Folding a node keeps types within 32 bits. -/
theorem Folded.sized (hfolded : g.Folded id payload g') (hsized : g.Sized)
    (hmember : g.member? id = some payload) : g'.Sized := by
  have hstays : ∀ {new}, g.Rewritten id new g' → ∀ {other found type},
    g'.member? other = some found →
      g.member? other ≠ none → found.declaredType = some type →
        type.width < Constant.widthLimit := by
    intro new hrewritten other found type hfound hbefore htype
    obtain ⟨before, hbefore⟩ := Option.ne_none_iff_exists'.mp hbefore
    rw [hrewritten.member?_of_member hbefore hfound, Payload.declaredType_mapEdges] at htype
    exact hsized hbefore htype
  intro other found type hfound htype
  cases hfolded with
  | keep _ hsame =>
    rw [hsame] at hfound
    exact hsized hfound htype
  | node hfold hrewritten honly => exact hstays hrewritten hfound (honly hfound) htype
  | constant hfold hrewritten hnew honly =>
    by_cases hnone : g.member? other = none
    · rw [honly hfound hnone] at htype
      obtain rfl := Option.some.inj htype
      exact hsized hmember (declaredType_of_foldPayload hfold)
    · exact hstays hrewritten hfound hnone htype

/-! ## 4. Equal nodes -/

/-- Of two members with one payload either may have the lower rank: they read the same, so neither
reads the other, and the one can be given the rank of the other. -/
theorem Ranked.lower (hranked : g.Ranked rank) (h : g.Kept) (hmember : g.member? id = some payload)
    (hcanon : g.member? canon = some payload) (hne : canon ≠ id) :
    ∃ rank', g.Ranked rank' ∧ rank' canon ≤ rank' id := by
  have hsize := hranked.bounded hmember
  have hmembers :
      ∀ other, g.member? other = if other = canon then some payload else g.member? other := by
    intro other
    split
    · rename_i heq
      rw [heq, hcanon]
    · rfl
  -- Writing the payload of `canon` where it stands already changes no member, and the update
  -- chooses the rank anew.
  refine ⟨_, hranked.update h (min (rank canon) (rank id)) (by omega) (Nat.le_refl _)
    (Or.inr (Nat.min_le_left _ _)) hmembers (fun target htarget => ?_), ?_⟩
  · have hlt := hranked.falls hcanon target htarget
    have hlt' := hranked.falls hmember target htarget
    refine ⟨?_, by omega⟩
    rintro rfl
    omega
  · rw [if_pos rfl, if_neg hne.symm]
    omega

/-- **A value is exchanged for another member with its payload**, whichever of the two is to have
the lower rank. -/
theorem exchange_twin (hkept : g.Kept) (hranked : g.Ranked rank)
    (hmember : g.member? id = some payload)
    (hvalue : payload.kind.isA .value = true) (hcanon : g.member? canon = some payload)
    (hne : canon ≠ id) :
    ∃ rank', g.Ranked rank' ∧ rank' canon ≤ rank' id ∧ (replace id canon).Ends g fun r g' =>
      r = .ok canon ∧ g.Exchanged id canon g' ∧ g.Rewritten id canon g' := by
  obtain ⟨rank', hranked', hle⟩ := hranked.lower hkept hmember hcanon hne
  refine ⟨rank', hranked', hle, ?_⟩
  refine (replace_member hkept hranked' hmember hvalue hcanon hvalue hne hle).imp
    fun r g' hend => ?_
  obtain ⟨hok, hexchanged, hranked''⟩ := hend
  exact ⟨hok, hexchanged, hexchanged.rewritten hranked'' ⟨payload, hmember, hvalue⟩⟩

/-- **Merging a value with one that has the same payload does no harm.** -/
theorem replace_twin (hc : Conserved start g) (hmember : g.member? id = some payload)
    (hvalue : payload.kind.isA .value = true) (hcanon : g.member? canon = some payload)
    (hne : canon ≠ id) :
    (replace id canon).Ends g fun r g' =>
      r = .ok canon ∧ Conserved start g' ∧ g.Exchanged id canon g' := by
  have hkept := hc.carried.kept
  obtain ⟨rank, hranked⟩ := hc.carried.ranked
  have hwidth : g.widthOf id = g.widthOf canon := by
    rw [widthOf_eq_measure hkept hranked hmember, widthOf_eq_measure hkept hranked hcanon]
  obtain ⟨rank', hranked', hle, hends⟩ := exchange_twin hkept hranked hmember hvalue hcanon hne
  refine hends.imp fun r g' hend => ?_
  obtain ⟨hok, hexchanged, hrewritten⟩ := hend
  exact ⟨hok, hc.exchange hranked' hrewritten hexchanged.not_fresh hmember hcanon hne hle hwidth,
    hexchanged⟩

end Graph

namespace Merging

variable {start g : Graph}

/-- Merging the equal nodes of a graph does no harm. -/
theorem run_conserved (hc : Graph.Conserved start g) :
    run.Ends g fun r g' => (∃ count, r = .ok count) ∧ Graph.Conserved start g' := by
  refine (run_merges (P := fun g => Graph.Conserved start g) (fun hc => hc.carried.kept) ?_ hc).imp
    fun r g' hend => ?_
  · intro g id canon payload hc hmember hkind hcanon hne
    refine (Graph.replace_twin hc hmember (Graph.isValue_of_mergeable hkind) hcanon hne).imp
      fun r later hend => ?_
    obtain ⟨hok, hconserved, hexchanged⟩ := hend
    exact ⟨hok, hexchanged, hconserved⟩
  · obtain ⟨count, hok, -, hconserved, -⟩ := hend
    exact ⟨⟨count, hok⟩, hconserved⟩

end Merging

/-! ## 5. Dead values -/

namespace Graph

variable {start g : Graph} {id : NodeId} {payload : Payload} {node : Node} {rank : NodeId → Nat}

/-- **Deleting a value nobody uses does no harm.**  It is given up for nothing, so to speak for
itself. -/
theorem Conserved.withdraw (hc : Conserved start g) (hnode : g.node? id = some node)
    (hstate : node.state = .active) (hnil : node.usages = [])
    (hvalue : node.payload.kind.isA .value = true) :
    Conserved start (g.withdraw id node.payload) := by
  have hkept := hc.carried.kept
  obtain ⟨rank, hranked⟩ := hc.carried.ranked
  have hmember : g.member? id = some node.payload :=
    member?_eq_some_iff.mpr ⟨node, hnode, hstate, rfl⟩
  have hmembers := g.member?_withdraw id node.payload
  have hsize := g.size_withdraw id node.payload
  have hbefore : ∀ {other payload}, (g.withdraw id node.payload).member? other = some payload →
      g.member? other = some payload := fun hother => (member?_of_withdraw hother).1
  -- As a rewriting the node is given up for itself: no edge is moved and nothing is new.
  have hrewritten : g.Rewritten id id (g.withdraw id node.payload) := by
    refine ⟨kept_withdraw hkept hnode hstate hnil, ⟨rank, ?_, ?_⟩, Nat.le_of_eq hsize.symm,
      ⟨_, hmember, hvalue⟩, by rw [hmembers, if_pos rfl], ?_, ?_,
        framed_withdraw hkept hmember hvalue⟩
    · intro other payload hother
      rw [hsize]
      exact hranked.bounded (hbefore hother)
    · exact fun hother => hranked.falls (hbefore hother)
    · intro other payload hne hother
      have hself : payload.mapEdges (swap id id) = payload :=
        Payload.mapEdges_eq_self fun target _ => by unfold swap; split <;> simp_all
      rw [hmembers, if_neg hne, hother, hself]
    · intro other payload hother hnone
      rw [hbefore hother] at hnone
      exact absurd hnone (by simp)
  refine hc.rewrite hrewritten ?_ fun hother hnone => ?_
  -- No reader is left, so nothing has to stand for the value.
  · rintro ⟨user, payload, huser, hin⟩
    exact absurd (Payload.mem_edges_of_mem_inputEdges hin)
      (hkept.not_mem_edges_of_usages_nil hnode hnil huser)
  · rw [hbefore hother] at hnone
    exact absurd hnone (by simp)

end Graph

namespace DeadValues

variable {start g : Graph}

/-- Removing the dead values of a graph does no harm. -/
theorem run_conserved (hc : Graph.Conserved start g) :
    run.Ends g fun r g' => (∃ count, r = .ok count) ∧ Graph.Conserved start g' := by
  refine (run_removes (P := fun g => Graph.Conserved start g)
    (fun hc hnode hstate hnil hvalue => hc.withdraw hnode hstate hnil hvalue) hc).imp
      fun r g' hend => ?_
  obtain ⟨count, hok, -, hconserved, -⟩ := hend
  exact ⟨⟨count, hok⟩, hconserved⟩

end DeadValues

/-! ## 6. What the passes keep -/

/-- **A pass leaves the behaviour of a definition in order**: it completes, reading has no cycles
afterwards, nothing is inconsistent, the slots of every node that is left read values of the widths
they read before, and the same is to be said about terminals and control flow. -/
def Pass.Conserves {σ : Type} (pass : Pass σ) (others : List Definition) (memory : σ)
    (d : Definition) : Prop :=
  let o := pass.visitor.visitDefinition others ⟨memory, d⟩
  let g := d.behavior
  let g' := o.state.definition.behavior
  o.result = .ok () ∧ g'.Acyclic ∧ g'.checkConsistency.hasErrors = false ∧
  (∀ id, g.isActive id = true → g'.isActive id = true →
    (g'.inputs id).map (Option.map g'.widthOf) = (g.inputs id).map (Option.map g.widthOf)) ∧
  g'.checkTerminal = g.checkTerminal ∧ g'.checkControlFlow = g.checkControlFlow

section

variable {σ : Type} {d : Definition} {rank : NodeId → Nat}

/-- A pass that does no harm leaves things in order. -/
theorem Pass.conserves_of_ends {pass : Pass σ} {others : List Definition} {memory : σ}
    (hkept : d.behavior.Kept) (hranked : d.behavior.Ranked rank)
    (h : (pass.visitor.visitDefinition others).Ends ⟨memory, d⟩ fun r v =>
      r = .ok () ∧ d.behavior.Conserved v.definition.behavior) :
        pass.Conserves others memory d := by
  obtain ⟨hresult, hconserved⟩ := h
  exact ⟨hresult, hconserved.acyclic,
    (Graph.checkConsistency_iff hconserved.carried.kept).mpr hconserved.lawful,
    fun id => hconserved.widths_eq hkept hranked, hconserved.framed.checkTerminal_eq,
    hconserved.framed.checkControlFlow_eq hkept⟩

/-- The visits are all there is to eliminating casts, so the induction over the list of members is
the run. -/
theorem CastElimination.conserves (hkept : d.behavior.Kept) (hranked : d.behavior.Ranked rank)
    (hlawful : d.behavior.Lawful) (others : List Definition) :
    CastElimination.pass.Conserves others () d := by
  refine Pass.conserves_of_ends hkept hranked (visitDefinition_of_nodes (Q := fun r d' =>
    r = .ok () ∧ d.behavior.Conserved d'.behavior) rfl rfl (fun v => ⟨⟨_, rfl⟩, rfl⟩) ?_)
  exact Graph.visitNodes_casts (.refl hkept hranked hlawful) others d.behavior.members

/-- Folding visits every member in dataflow order.  The only thing that could go wrong is a slice
of too many bits, and types held in 32 bits rule it out; they stay so, as nodes keep their types.
-/
theorem ConstantFolding.conserves (hkept : d.behavior.Kept) (hranked : d.behavior.Ranked rank)
    (hlawful : d.behavior.Lawful) (hsized : d.behavior.Sized) (others : List Definition)
    (memory : Nat) : ConstantFolding.pass.Conserves others memory d := by
  refine Pass.conserves_of_ends hkept hranked ((visitDefinition_folds
    (P := fun g => d.behavior.Conserved g ∧ g.Sized)
    (fun hc => ⟨hc.1.carried.kept, hc.1.carried.ranked⟩)
    (fun hc hranked hmember hfolded =>
      ⟨hfolded.conserved hc.1 hranked hmember, hfolded.sized hc.2 hmember⟩)
    ⟨.refl hkept hranked hlawful, hsized⟩ others memory).imp fun r v hend => ?_)
  obtain ⟨⟨hconserved, hsized⟩, hok | ⟨-, id, payload, hmember, hnone⟩⟩ := hend
  · exact ⟨hok, hconserved⟩
  · exact absurd hnone (Graph.foldPayload_ne_none (hconserved.lawful hmember) fun type =>
      hsized hmember)

/-- A pass that works on the graph beforehand, and then only logs: what is said about the edit is
said about the pass.  Merging and the removal of dead values are of this form. -/
theorem Pass.conserves_of_edit {pass : Pass Unit} {edit : Edit Nat} {others : List Definition}
    {later : Nat → Visiting Unit Action} (hkept : d.behavior.Kept)
    (hranked : d.behavior.Ranked rank)
    (hstart : pass.visitor.start others = Visiting.edit edit >>= later)
    (hlater : ∀ count (v : VisitState Unit), (later count).Ends v fun r v' =>
      r = .ok .stop ∧ v'.definition = v.definition)
    (h : edit.Ends d.behavior fun r g => (∃ count, r = .ok count) ∧ d.behavior.Conserved g) :
    pass.Conserves others () d := by
  refine Pass.conserves_of_ends hkept hranked (visitDefinition_of_edit (Q := fun r d' =>
    r = .ok () ∧ d.behavior.Conserved d'.behavior) hstart hlater (h.imp fun r g hend => ?_))
  obtain ⟨⟨count, rfl⟩, hconserved⟩ := hend
  exact ⟨count, rfl, rfl, hconserved⟩

theorem Merging.conserves (hkept : d.behavior.Kept) (hranked : d.behavior.Ranked rank)
    (hlawful : d.behavior.Lawful) (others : List Definition) :
    Merging.pass.Conserves others () d := by
  refine Pass.conserves_of_edit hkept hranked rfl ?_
    (Merging.run_conserved (.refl hkept hranked hlawful))
  intro merged v
  exact (Run.ends_count (fun _ => merged) _ _ _ _).mpr ⟨rfl, rfl⟩

theorem DeadValues.conserves (hkept : d.behavior.Kept) (hranked : d.behavior.Ranked rank)
    (hlawful : d.behavior.Lawful) (others : List Definition) :
    DeadValues.pass.Conserves others () d := by
  refine Pass.conserves_of_edit hkept hranked rfl ?_
    (DeadValues.run_conserved (.refl hkept hranked hlawful))
  intro removed v
  exact (Run.ends_count (fun _ => removed) _ _ _ _).mpr ⟨rfl, rfl⟩

end

namespace Graph

/-- **Each pass leaves a consistent graph without cycles in order**; folding constants does as long
as types are held in 32 bits. -/
theorem Reachable.passes_conserve {d : Definition} (h : d.behavior.Reachable)
    (hacyclic : d.behavior.Acyclic) (hconsistent : d.behavior.checkConsistency.hasErrors = false)
    (others : List Definition) :
    CastElimination.pass.Conserves others () d ∧
    (d.behavior.Sized → ∀ memory, ConstantFolding.pass.Conserves others memory d) ∧
    Merging.pass.Conserves others () d ∧ DeadValues.pass.Conserves others () d := by
  have hkept := h.kept
  obtain ⟨rank, hranked⟩ := hacyclic.exists_ranked hkept
  have hlawful : d.behavior.Lawful := (checkConsistency_iff hkept).mp hconsistent
  exact ⟨CastElimination.conserves hkept hranked hlawful others,
    fun hsized memory => ConstantFolding.conserves hkept hranked hlawful hsized others memory,
    Merging.conserves hkept hranked hlawful others,
      DeadValues.conserves hkept hranked hlawful others⟩

/-- Types that are all held in 32 bits, by a test on the members. -/
theorem sized_of_members {g : Graph} (h : (g.members.all fun id =>
    ((g.payload? id).bind Payload.declaredType).all fun type =>
      decide (type.width < Constant.widthLimit)) = true) : g.Sized := by
  intro id payload type hmember htype
  have hall := List.all_eq_true.mp h id (mem_members_iff.mpr ⟨payload, hmember⟩)
  rw [payload?_of_member? hmember, Option.bind_some, htype] at hall
  simpa using hall

/-- A function with something to do for each pass: a parameter is cast, two constants are added, a
sum is computed twice, and a truncation is used by nobody. -/
def untidy : Definition where
  name := "f"
  role := .function
  behavior :=
    ([.add (.param "x" (.uint 8)), .add (.typeCast ⟨0⟩ (.uint 16)),
      .add (.const (Constant.ofInt 2 (.uint 16))), .add (.const (Constant.ofInt 3 (.uint 16))),
      .add (.builtInCall [⟨2⟩, ⟨3⟩] .add (.uint 16)),
        .add (.builtInCall [⟨1⟩, ⟨4⟩] .add (.uint 16)),
      .add (.builtInCall [⟨1⟩, ⟨4⟩] .add (.uint 16)),
        .add (.builtInCall [⟨5⟩, ⟨6⟩] .mul (.uint 16)),
      .add (.truncate ⟨7⟩ (.uint 4)), .add (.ret ⟨7⟩)] : List Move).foldl
        (fun g move => move.after g) (empty "f")

/-- It is left in order whichever pass is run. -/
theorem passes_conserve_untidy :
    untidy.behavior.Reachable ∧ untidy.behavior.Acyclic ∧
    untidy.behavior.checkConsistency.hasErrors = false ∧ untidy.behavior.Sized ∧
    CastElimination.pass.Conserves [] () untidy ∧ ConstantFolding.pass.Conserves [] 0 untidy ∧
    Merging.pass.Conserves [] () untidy ∧ DeadValues.pass.Conserves [] () untidy := by
  have hreachable : untidy.behavior.Reachable := reachable_foldl "f" _
  have hacyclic : untidy.behavior.Acyclic := acyclic_of_creation (by cbv)
  have hconsistent : untidy.behavior.checkConsistency.hasErrors = false := by cbv
  have hsized : untidy.behavior.Sized := sized_of_members (by cbv)
  obtain ⟨hcasts, hfolds, hmerges, hremoves⟩ :=
    Reachable.passes_conserve hreachable hacyclic hconsistent []
  exact ⟨hreachable, hacyclic, hconsistent, fun hmember => hsized hmember, hcasts,
    hfolds (fun hmember => hsized hmember) 0, hmerges, hremoves⟩

end Graph

end BehaviorGraph
