/-
# Rewriting a graph step by step

A rewriting gives up one value for another and may add members at the end of the arena
(`Rewritten`).  It keeps an interpretation if the two values come to the same: **what the inputs of
the members that are left come to is what it was** (`Rewritten.carried`), and that is so after any
number of steps (`Carried`).

Widths are an interpretation, and a member obeys its rule as long as the widths it reads stay.  So
a rewriting between values of one width leaves a lawful graph (`Rewritten.lawful`), with the
outlines it had (`Conserved`).
-/
import BehaviorGraph.Proofs.Exchanging
import BehaviorGraph.Proofs.Histories
import BehaviorGraph.Proofs.Rules

namespace BehaviorGraph

namespace Graph

variable {α : Type} {I : Interpretation α} {start between g g' g'' : Graph} {old new id : NodeId}
  {payload found : Payload} {rank : NodeId → Nat}

/-! ## 1. One rewriting -/

/-- **The value `old` was given up for `new`**, and there may be members that were not there
before. -/
structure Rewritten (g : Graph) (old new : NodeId) (g' : Graph) : Prop where
  kept : g'.Kept
  ranked : ∃ rank, g'.Ranked rank
  size : g.nodes.size ≤ g'.nodes.size
  value : g.Offers old .value
  gone : g'.member? old = none
  member? : ∀ {id payload}, id ≠ old → g.member? id = some payload →
    g'.member? id = some (payload.mapEdges (swap old new))
  /-- What is new stands at the end of the arena. -/
  fresh : ∀ {id payload}, g'.member? id = some payload → g.member? id = none →
    g.nodes.size ≤ id.index
  framed : g.Framed g'

/-- An exchange adds no member. -/
theorem Exchanged.not_fresh (h : g.Exchanged old new g') (hmember : g'.member? id = some payload) :
    g.member? id ≠ none := by
  intro hnone
  rw [h.member?, hnone] at hmember
  split at hmember <;> exact absurd hmember (by simp)

theorem Exchanged.rewritten (h : g.Exchanged old new g') (hranked : g'.Ranked rank)
    (hold : g.Offers old .value) : g.Rewritten old new g' :=
  ⟨h.kept, ⟨rank, hranked⟩, Nat.le_of_eq h.size.symm, hold, h.gone, h.member?_of_ne,
    fun hmember hnone => absurd hnone (h.not_fresh hmember), h.framed⟩

/-- A rewriting of a graph that another one joined is a rewriting of the graph itself. -/
theorem Joined.rewritten {joined : NodeId} (hjoined : g.Joined joined found between)
    (h : between.Rewritten old new g') (hold : g.Offers old .value) : g.Rewritten old new g' := by
  refine ⟨h.kept, h.ranked, ?_, hold, h.gone, ?_, ?_, hjoined.framed.trans h.framed⟩
  · have hsize := h.size
    rw [hjoined.size] at hsize
    omega
  · exact fun hne hmember => h.member? hne (hjoined.member? hmember)
  · intro id payload hmember hnone
    cases hbetween : between.member? id with
    | none =>
      have hlarge := h.fresh hmember hbetween
      rw [hjoined.size] at hlarge
      omega
    | some payload' => exact (hjoined.only hbetween hnone).2

/-- **`new` comes to what `old` came to**, if anybody reads that; it may rest on what `old` reads.
-/
def StandsFor (I : Interpretation α) (g : Graph) (old new : NodeId) (g' : Graph) : Prop :=
  (∃ user, g.ReadsFrom user old) → ∀ {payload}, g.member? old = some payload →
    (∀ target ∈ payload.inputEdges, I.value g target = I.value g' (swap old new target)) →
      I.value g old = I.value g' new

namespace Rewritten

/-- Who is still a member is not the one given up. -/
theorem ne_of_member (h : g.Rewritten old new g') (hmember : g'.member? id = some payload) :
    id ≠ old := by
  rintro rfl
  rw [h.gone] at hmember
  exact absurd hmember (by simp)

/-- Who was a member and still is reads the new value in place of the old one. -/
theorem member?_of_member (h : g.Rewritten old new g') (hmember : g.member? id = some found)
    (hmember' : g'.member? id = some payload) : payload = found.mapEdges (swap old new) := by
  rw [h.member? (h.ne_of_member hmember') hmember] at hmember'
  exact (Option.some.inj hmember').symm

/-- **Every member comes to what it came to before, where its value is now**, unless it is the one
given up and nobody reads it. -/
theorem value_eq (h : g.Rewritten old new g') (hkept : g.Kept) (hranked : g.Ranked rank)
    (hold : StandsFor I g old new g') (hmember : g.member? id = some payload)
    (hread : id ≠ old ∨ ∃ user, g.ReadsFrom user old) :
    I.value g id = I.value g' (swap old new id) := by
  obtain ⟨rank', hranked'⟩ := h.ranked
  refine hranked.induct hkept (P := fun id => id ≠ old ∨ (∃ user, g.ReadsFrom user old) →
    I.value g id = I.value g' (swap old new id)) ?_ hmember hread
  intro id payload hmember ih hread
  have hreads : ∀ target ∈ payload.inputEdges, I.value g target
      = I.value g' (swap old new target) := by
    intro target htarget
    refine ih target htarget ?_
    by_cases heq : target = old
    · exact Or.inr ⟨id, payload, hmember, heq ▸ htarget⟩
    · exact Or.inl heq
  by_cases hid : id = old
  · subst hid
    rw [swap_self]
    exact hold (hread.resolve_left fun hne => hne rfl) hmember hreads
  · rw [swap_of_ne hid]
    exact Interpretation.value_eq_of_reads hkept hranked h.kept hranked' hmember
      (h.member? hid hmember) rfl hreads

/-- In particular what a member reads. -/
theorem value_read (h : g.Rewritten old new g') (hkept : g.Kept) (hranked : g.Ranked rank)
    (hold : StandsFor I g old new g') (hmember : g.member? id = some payload) {target : NodeId}
    (htarget : target ∈ payload.inputEdges) :
    I.value g target = I.value g' (swap old new target) := by
  obtain ⟨found, hfound⟩ := hkept.member?_of_mem_inputEdges hmember htarget
  refine h.value_eq hkept hranked hold hfound ?_
  by_cases heq : target = old
  · exact Or.inr ⟨id, payload, hmember, heq ▸ htarget⟩
  · exact Or.inl heq

/-- What ranks no higher than `old` does not read it, so it comes to what it came to. -/
theorem value_below (h : g.Rewritten old new g') (hkept : g.Kept) (hranked : g.Ranked rank)
    (hmember : g.member? id = some payload) (hne : id ≠ old) (hle : rank id ≤ rank old) :
    I.value g id = I.value g' id := by
  obtain ⟨rank', hranked'⟩ := h.ranked
  refine hranked.induct hkept (P := fun id => id ≠ old → rank id ≤ rank old →
    I.value g id = I.value g' id) ?_ hmember hne hle
  intro id payload hmember ih hid hlow
  refine Interpretation.value_eq_of_reads hkept hranked h.kept hranked' hmember
    (h.member? hid hmember) rfl fun target htarget => ?_
  have hlt := hranked.falls hmember target htarget
  have htarget' : target ≠ old := by
    rintro rfl
    omega
  rw [swap_of_ne htarget']
  exact ih target htarget htarget' (by omega)

/-- That `new` comes to what `old` came to may also be seen before the rewriting, if the rank of
`new` is no higher. -/
theorem standsFor (h : g.Rewritten old new g') (hkept : g.Kept) (hranked : g.Ranked rank)
    (hnew : g.member? new = some found) (hne : new ≠ old) (hle : rank new ≤ rank old)
    (hsame : I.value g old = I.value g new) : StandsFor I g old new g' := by
  intro _ payload hold hreads
  rw [hsame]
  exact h.value_below hkept hranked hnew hne hle

end Rewritten

/-! ## 2. An interpretation through many steps -/

/-- **The members of `start` that `g` still has read what they read before**, as far as an
interpretation tells. -/
structure Carried (I : Interpretation α) (start g : Graph) : Prop where
  kept : g.Kept
  ranked : ∃ rank, g.Ranked rank
  size : start.nodes.size ≤ g.nodes.size
  fresh : ∀ {id payload}, g.member? id = some payload → start.member? id = none →
    start.nodes.size ≤ id.index
  reads : ∀ {id payload payload'}, start.member? id = some payload → g.member? id = some payload' →
    payload'.inputs.map (Option.map (I.value g)) = payload.inputs.map (Option.map (I.value start))

namespace Carried

theorem refl (I : Interpretation α) (h : g.Kept) (hranked : g.Ranked rank) : Carried I g g := by
  refine ⟨h, ⟨rank, hranked⟩, Nat.le_refl _, ?_, ?_⟩
  · intro id payload hmember hnone
    rw [hnone] at hmember
    exact absurd hmember (by simp)
  · intro id payload payload' hmember hmember'
    rw [hmember] at hmember'
    rw [Option.some.inj hmember']

theorem trans (h : Carried I g g') (h' : Carried I g' g'') : Carried I g g'' := by
  refine ⟨h'.kept, h'.ranked, Nat.le_trans h.size h'.size, ?_, ?_⟩
  · intro id payload hmember hnone
    cases hbetween : g'.member? id with
    | none => exact Nat.le_trans h.size (h'.fresh hmember hbetween)
    | some payload' => exact h.fresh hbetween hnone
  · intro id payload payload'' hmember hmember''
    cases hbetween : g'.member? id with
    | none =>
      -- Who was given up does not come back.
      have hlarge := h'.fresh hmember'' hbetween
      have hsmall := index_lt_size hmember
      have hsize := h.size
      omega
    | some payload' => exact (h'.reads hbetween hmember'').trans (h.reads hmember hbetween)

/-- What is read, told of the slots of a node. -/
theorem inputs_eq (h : Carried I start g) (hactive : start.isActive id = true)
    (hactive' : g.isActive id = true) :
    (g.inputs id).map (Option.map (I.value g))
      = (start.inputs id).map (Option.map (I.value start)) := by
  obtain ⟨payload, hmember⟩ := isActive_iff.mp hactive
  obtain ⟨payload', hmember'⟩ := isActive_iff.mp hactive'
  rw [inputs, inputs, payload?_of_member? hmember, payload?_of_member? hmember']
  exact h.reads hmember hmember'

end Carried

/-- What the slots of a payload read, where only the targets that are read matter. -/
theorem map_inputs_congr {f f' : NodeId → α}
    (h : ∀ target ∈ payload.inputEdges, f target = f' target) :
    payload.inputs.map (Option.map f) = payload.inputs.map (Option.map f') := by
  refine List.map_congr_left fun target htarget => ?_
  cases target with
  | none => rfl
  | some target => exact congrArg some (h target (Payload.mem_inputs_iff.mp htarget))

/-- **A rewriting carries an interpretation** in which the new value comes to what the old one came
to. -/
theorem Rewritten.carried (h : g.Rewritten old new g') (hkept : g.Kept) (hranked : g.Ranked rank)
    (hold : StandsFor I g old new g') : Carried I g g' := by
  refine ⟨h.kept, h.ranked, h.size, h.fresh, ?_⟩
  intro id payload payload' hmember hmember'
  obtain rfl := h.member?_of_member hmember hmember'
  rw [Payload.inputs_mapEdges, List.map_map]
  refine Eq.trans ?_ (map_inputs_congr (f := fun target => I.value g' (swap old new target))
    fun target htarget => ?_)
  · refine List.map_congr_left fun target _ => ?_
    cases target <;> rfl
  · exact (h.value_read hkept hranked hold hmember htarget).symm

/-! ## 3. Widths and rules -/

/-- Widths read like an interpretation. -/
theorem map_widthOf_inputs (h : g.Kept) (hranked : g.Ranked rank)
    (hmember : g.member? id = some payload) :
    payload.inputs.map (Option.map g.widthOf)
      = payload.inputs.map (Option.map (measuring.value g)) := by
  refine map_inputs_congr fun target htarget => ?_
  obtain ⟨found, hfound⟩ := h.member?_of_mem_inputEdges hmember htarget
  exact widthOf_eq_value h hranked hfound

/-- **A rewriting between values of one width changes no width that is read.** -/
theorem Rewritten.widthOf_read (h : g.Rewritten old new g') (hkept : g.Kept)
    (hranked : g.Ranked rank)
    (hold : StandsFor measuring g old new g') (hne : id ≠ old)
    (hmember : g.member? id = some payload)
    {target : NodeId} (htarget : target ∈ payload.inputEdges) :
    g'.widthOf (swap old new target) = g.widthOf target := by
  obtain ⟨rank', hranked'⟩ := h.ranked
  obtain ⟨found, hfound⟩ := hkept.member?_of_mem_inputEdges hmember htarget
  have htarget' : swap old new target ∈ (payload.mapEdges (swap old new)).inputEdges := by
    rw [Payload.inputEdges_mapEdges]
    exact List.mem_map_of_mem htarget
  obtain ⟨found', hfound'⟩ := h.kept.member?_of_mem_inputEdges (h.member? hne hmember) htarget'
  rw [widthOf_eq_value hkept hranked hfound, widthOf_eq_value h.kept hranked' hfound',
    h.value_read hkept hranked hold hmember htarget]

/-- **A rewriting between values of one width leaves a lawful graph**, if the members it adds obey.
-/
theorem Rewritten.lawful (h : g.Rewritten old new g') (hkept : g.Kept) (hranked : g.Ranked rank)
    (hlawful : g.Lawful) (hold : StandsFor measuring g old new g')
    (hnew : ∀ {id payload}, g'.member? id = some payload → g.member? id = none →
      payload.Obeys g'.widthOf g'.kind?) : g'.Lawful := by
  intro id payload' hmember'
  cases hbefore : g.member? id with
  | none => exact hnew hmember' hbefore
  | some payload =>
    have hne := h.ne_of_member hmember'
    obtain rfl := h.member?_of_member hbefore hmember'
    refine (hlawful hbefore).mapEdges
      (fun target htarget => h.widthOf_read hkept hranked hold hne hbefore htarget) ?_
    · -- Only a value was given up, and rules ask for kinds of control nodes.
      intro target htarget kind hkind hcontrol
      obtain ⟨found, hfound⟩ := hkept.member?_of_mem_edges hbefore htarget
      rw [kind?_of_member? hfound] at hkind
      obtain rfl := Option.some.inj hkind
      have htarget' : target ≠ old := by
        rintro rfl
        obtain ⟨offered, hoffered, hvalue⟩ := h.value
        rw [hfound] at hoffered
        obtain rfl := Option.some.inj hoffered
        rw [hcontrol] at hvalue
        exact Bool.noConfusion hvalue
      rw [swap_of_ne htarget', kind?_of_member? (h.member? htarget' hfound), Payload.kind_mapEdges]

/-- **Of a graph with its records in order nothing is complained about exactly if it is lawful.** -/
theorem checkConsistency_iff (h : g.Kept) : g.checkConsistency.hasErrors = false ↔ g.Lawful := by
  rw [← checkKinds_errors_eq_nil_iff]
  have herrors : g.checkConsistency.errors = g.checkKinds.errors := by
    rw [checkConsistency, checkEdges_of_kept h, checkUnique_of_kept h]
    rfl
  rw [Diagnostics.hasErrors, herrors]
  simp

/-- **`g` came out of `start` without harm**: it is lawful, the widths the members read are the
same, and so are the outlines. -/
structure Conserved (start g : Graph) : Prop where
  carried : Carried measuring start g
  lawful : g.Lawful
  framed : start.Framed g

namespace Conserved

theorem refl (h : g.Kept) (hranked : g.Ranked rank) (hlawful : g.Lawful) : Conserved g g :=
  ⟨.refl _ h hranked, hlawful, .refl g⟩

/-- A rewriting between values of one width does no harm. -/
theorem rewrite (hc : Conserved start g) (h : g.Rewritten old new g')
    (hold : StandsFor measuring g old new g')
    (hnew : ∀ {id payload}, g'.member? id = some payload → g.member? id = none →
      payload.Obeys g'.widthOf g'.kind?) : Conserved start g' := by
  obtain ⟨rank, hranked⟩ := hc.carried.ranked
  have hkept := hc.carried.kept
  exact ⟨hc.carried.trans (h.carried hkept hranked hold),
    h.lawful hkept hranked hc.lawful hold hnew, hc.framed.trans h.framed⟩

theorem acyclic (h : Conserved start g) : g.Acyclic := by
  obtain ⟨rank, hranked⟩ := h.carried.ranked
  exact hranked.acyclic

theorem widths_eq (h : Conserved start g) (hkept : start.Kept) (hranked : start.Ranked rank)
    (hactive : start.isActive id = true) (hactive' : g.isActive id = true) :
    (g.inputs id).map (Option.map g.widthOf) = (start.inputs id).map
      (Option.map start.widthOf) := by
  obtain ⟨rank', hranked'⟩ := h.carried.ranked
  obtain ⟨payload, hmember⟩ := isActive_iff.mp hactive
  obtain ⟨payload', hmember'⟩ := isActive_iff.mp hactive'
  rw [inputs, inputs, payload?_of_member? hmember, payload?_of_member? hmember']
  simp only
  rw [map_widthOf_inputs hkept hranked hmember, map_widthOf_inputs h.carried.kept hranked' hmember']
  exact h.carried.reads hmember hmember'

end Conserved

end Graph

end BehaviorGraph
