/-
# Thinning keeps what is tidy

Merging gives members up for their twins, and removing gives them up for nothing.  Neither undoes
what was done before: no kind of node comes in, and irreducible nodes stay irreducible
(`Graph.Thinned`).  Removing brings no two equal members back either, so **the two passes in turn
leave nothing to do** (`Graph.NormalForm`) where there were no casts and no calls and nothing to
fold.
-/
import BehaviorGraph.Proofs.NormalForms

namespace BehaviorGraph

/-! ## 1. Graphs that get smaller -/

namespace Graph

variable {start g g' : Graph} {id canon : NodeId} {payload : Payload} {node : Node}

/-- There is nothing to fold. -/
def Reduced (g : Graph) : Prop :=
  ∀ {id payload}, g.member? id = some payload → payload.Irreducible g.Known

/-- **There is nothing left to do in a graph**: no casts and no calls, nothing to fold, to merge or
to remove. -/
structure NormalForm (g : Graph) : Prop where
  castless : g.Without .typeCast
  callless : g.Without .funcCall
  reduced : g.Reduced
  distinct : g.Distinct
  used : g.Used

/-- **Members were given up for others**, or for nothing, and all else is as tidy as it was. -/
structure Thinned (start g : Graph) : Prop where
  conserved : Conserved start g
  kinds : ∀ {kind}, start.Without kind → g.Without kind
  reduced : start.Reduced → g.Reduced

theorem Thinned.refl {rank : NodeId → Nat} (h : g.Kept) (hranked : g.Ranked rank)
    (hlawful : g.Lawful) : Thinned g g := ⟨.refl h hranked hlawful, fun h => h, fun h => h⟩

/-- Giving a value up for one with the same payload makes nobody a constant. -/
theorem Exchanged.reduced (h : g.Exchanged id canon g') (hkept : g.Kept)
    (hmember : g.member? id = some payload) (hcanon : g.member? canon = some payload)
    (hne : canon ≠ id) (hreduced : g.Reduced) : g'.Reduced := by
  intro other found hfound
  obtain ⟨before, hbefore, -, rfl⟩ := h.exists_before hfound
  refine (hreduced hbefore).mapEdges fun target htarget hknown => ?_
  refine hknown.back (S := fun target => ∃ payload, g.member? target = some payload) ?_
    (hkept.member?_of_mem_inputEdges hbefore htarget)
  rintro source moved ⟨payload', hsource⟩ hmoved
  refine ⟨payload', hsource, ?_, fun target => hkept.member?_of_mem_inputEdges hsource⟩
  by_cases heq : source = id
  · subst heq
    obtain rfl := Option.some.inj (hmember.symm.trans hsource)
    rw [swap_self, h.member?_of_ne hne hcanon] at hmoved
    exact (Option.some.inj hmoved).symm
  · rw [swap_of_ne heq, h.member?_of_ne heq hsource] at hmoved
    exact (Option.some.inj hmoved).symm

/-- **Merging a member with its twin leaves all else as tidy as it was.** -/
theorem Thinned.merge (h : Thinned start g) (hmember : g.member? id = some payload)
    (hkind : Merging.mergeable payload.kind = true) (hcanon : g.member? canon = some payload)
    (hne : canon ≠ id) :
    (replace id canon).Ends g fun r later =>
      r = .ok canon ∧ g.Exchanged id canon later ∧ Thinned start later := by
  refine (replace_twin h.conserved hmember (isValue_of_mergeable hkind) hcanon hne).imp
    fun r later hend => ?_
  obtain ⟨hok, hconserved, hexchanged⟩ := hend
  refine ⟨hok, hexchanged, hconserved, ?_, fun hstart =>
    hexchanged.reduced h.conserved.carried.kept hmember hcanon hne (h.reduced hstart)⟩
  intro kind hstart other found hfound
  obtain ⟨before, hbefore, -, rfl⟩ := hexchanged.exists_before hfound
  rw [Payload.kind_mapEdges]
  exact h.kinds hstart hbefore

/-- **Deleting a value nobody uses leaves all else as tidy as it was.** -/
theorem Thinned.withdraw (h : Thinned start g) (hnode : g.node? id = some node)
    (hstate : node.state = .active) (hnil : node.usages = [])
    (hvalue : node.payload.kind.isA .value = true) :
      Thinned start (g.withdraw id node.payload) where
  conserved := h.conserved.withdraw hnode hstate hnil hvalue
  kinds hstart _ _ hmember := h.kinds hstart (member?_of_withdraw hmember).1
  reduced := by
    intro hstart other payload hmember
    have hbefore := (member?_of_withdraw hmember).1
    have hself : ∀ payload : Payload, payload.mapEdges (fun target => target) = payload :=
      fun payload => Payload.mapEdges_eq_self fun _ _ => rfl
    rw [← hself payload]
    refine (h.reduced hstart hbefore).mapEdges fun target htarget hknown => ?_
    refine hknown.back (f := fun target => target) (S := fun _ => True) ?_ trivial
    intro source found _ hfound
    exact ⟨found, (member?_of_withdraw hfound).1, (hself found).symm, fun _ _ => trivial⟩

end Graph

/-! ## 2. The two passes -/

variable {d : Definition} {rank : NodeId → Nat}

/-- **Merging leaves nothing to merge**, and all else as tidy as it was. -/
theorem Merging.visitDefinition_distinct (hkept : d.behavior.Kept)
    (hranked : d.behavior.Ranked rank)
    (hlawful : d.behavior.Lawful) (others : List Definition) (memory : Unit) :
    (pass.visitor.visitDefinition others).Ends ⟨memory, d⟩ fun r v => r = .ok () ∧
      d.behavior.Thinned v.definition.behavior ∧ v.definition.behavior.Distinct := by
  refine visitDefinition_of_edit (Q := fun r d' => r = .ok () ∧ d.behavior.Thinned d'.behavior ∧
    d'.behavior.Distinct) rfl ?_ ((run_merges (P := fun g => d.behavior.Thinned g)
      (fun h => h.conserved.carried.kept) (fun h => h.merge) (.refl hkept hranked hlawful)).imp
        fun r g hend => ?_)
  · intro merged v
    exact (Run.ends_count (fun _ => merged) _ _ _ _).mpr ⟨rfl, rfl⟩
  · obtain ⟨count, rfl, -, hend⟩ := hend
    exact ⟨count, rfl, rfl, hend⟩

/-- **Removing leaves nothing to remove**, and nothing that could be merged if there was nothing. -/
theorem DeadValues.visitDefinition_used (hkept : d.behavior.Kept) (hranked : d.behavior.Ranked rank)
    (hlawful : d.behavior.Lawful) (others : List Definition) (memory : Unit) :
    (pass.visitor.visitDefinition others).Ends ⟨memory, d⟩ fun r v => r = .ok () ∧
      d.behavior.Thinned v.definition.behavior ∧
      (d.behavior.Distinct → v.definition.behavior.Distinct) ∧ v.definition.behavior.Used := by
  refine visitDefinition_of_edit (Q := fun r d' => r = .ok () ∧ d.behavior.Thinned d'.behavior ∧
    (d.behavior.Distinct → d'.behavior.Distinct) ∧ d'.behavior.Used) rfl ?_
      ((run_removes (P := fun g => d.behavior.Thinned g ∧ (d.behavior.Distinct → g.Distinct))
        (fun h hnode hstate hnil hvalue => ⟨h.1.withdraw hnode hstate hnil hvalue, ?_⟩)
        ⟨.refl hkept hranked hlawful, fun hdistinct => hdistinct⟩).imp fun r g hend => ?_)
  · intro removed v
    exact (Run.ends_count (fun _ => removed) _ _ _ _).mpr ⟨rfl, rfl⟩
  · intro hdistinct id other payload hmember hother
    exact h.2 hdistinct (Graph.member?_of_withdraw hmember).1 (Graph.member?_of_withdraw hother).1
  · obtain ⟨count, rfl, -, ⟨hthinned, hdistinct⟩, hused⟩ := hend
    exact ⟨count, rfl, rfl, hthinned, hdistinct, hused⟩

end BehaviorGraph
