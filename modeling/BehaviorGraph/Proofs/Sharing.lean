/-
# Merging shares all it may

A member that may be merged is an operation on what it reads; any other member can only be told by
its place.  `Graph.expression` writes a member out like that: as a tree of operations, down to the
members that are never merged, which stand for themselves.

Merging changes no expression that is read, and leaves everything that is never merged in its place
(`Graph.Shared`).  It ends where no two members have one payload, and there **no two members have
one expression** (`Distinct.expression_injective`): what was computed twice is computed once,
however deep the two computations were.  That the walk comes to an end does not depend on reading
being acyclic (`Merging.comesTo_run`).
-/
import BehaviorGraph.Proofs.Conserving
import BehaviorGraph.Proofs.Terms

namespace BehaviorGraph

/-! ## 1. Expressions -/

/-- **A computation as a tree**: an operation, its edges left aside, with its operands, or a node
that counts as itself. -/
inductive Expression where
  | node (id : NodeId)
  | operation (head : Payload) (operands : List Expression)

/-- How members are written out: those that may be merged as operations, all others as themselves.
-/
def expressing : Interpretation Expression where
  step id payload read :=
    if Merging.mergeable payload.kind then
      (payload.inputEdges.mapM read).map (.operation payload.head)
    else some (.node id)
  step_mapEdges := by
    intro id payload f read read' h
    rw [Payload.kind_mapEdges, Payload.inputEdges_mapEdges, mapM_map_congr h, Payload.head_mapEdges]

/-- **What is never merged**: control nodes, side effects, readings, calls and names. -/
theorem Merging.mergeable_eq_false_iff {kind : Kind} : mergeable kind = false ↔
    kind.isA .control = true ∨ kind.isA .sideEffect = true ∨
      kind ∈ [.readReg, .readRegFile, .readMem, .funcCall, .binding] := by
  cases kind <;> decide

/-- The slots of a value are all set. -/
theorem Payload.inputs_of_isValue {payload : Payload} (h : payload.kind.isA .value = true) :
    payload.inputs = payload.inputEdges.map some := by
  cases payload <;>
    first
    | exact Bool.noConfusion h
    | simp [inputs, inputEdges, inputSlots, Slot.required, Function.comp_def]

namespace Graph

variable {start g g' : Graph} {id other canon : NodeId} {payload found : Payload}
  {rank : NodeId → Nat}

/-- **A member written out**, down to the members that are never merged. -/
def expression (g : Graph) (id : NodeId) : Option Expression := expressing.value g id

theorem expression_of_mergeable (h : g.Kept) (hranked : g.Ranked rank)
    (hmember : g.member? id = some payload) (hkind : Merging.mergeable payload.kind = true) :
    g.expression id = (payload.inputEdges.mapM g.expression).map (.operation payload.head) :=
  (Interpretation.value_eq_step h hranked hmember).trans (if_pos hkind)

theorem expression_of_not_mergeable (h : g.Kept) (hranked : g.Ranked rank)
    (hmember : g.member? id = some payload) (hkind : Merging.mergeable payload.kind = false) :
    g.expression id = some (.node id) :=
  (Interpretation.value_eq_step h hranked hmember).trans (if_neg (by simp [hkind]))

/-- **Every member has an expression.** -/
theorem exists_expression (h : g.Kept) (hranked : g.Ranked rank)
    (hmember : g.member? id = some payload) :
    ∃ e, g.expression id = some e := by
  refine hranked.induct h (P := fun id => ∃ e, g.expression id = some e) ?_ hmember
  intro id payload hmember hreads
  cases hkind : Merging.mergeable payload.kind with
  | true =>
    obtain ⟨operands, hoperands, -⟩ := exists_mapM hreads
    exact ⟨_, by rw [expression_of_mergeable h hranked hmember hkind, hoperands, Option.map_some]⟩
  | false => exact ⟨_, expression_of_not_mergeable h hranked hmember hkind⟩

/-- An operation that is written out tells its head, and its operands one by one. -/
theorem exists_operands (h : g.Kept) (hranked : g.Ranked rank)
    (hmember : g.member? id = some payload)
    (hkind : Merging.mergeable payload.kind = true) : ∃ operands,
      payload.inputEdges.mapM g.expression = some operands ∧
      g.expression id = some (.operation payload.head operands) := by
  obtain ⟨e, he⟩ := exists_expression h hranked hmember
  rw [expression_of_mergeable h hranked hmember hkind] at he ⊢
  obtain ⟨operands, hoperands, -⟩ := Option.map_eq_some_iff.mp he
  exact ⟨operands, hoperands, by rw [hoperands, Option.map_some]⟩

/-- **Where no two members have one payload no two have one expression.** -/
theorem Distinct.expression_injective (hdistinct : g.Distinct) (h : g.Kept)
    (hranked : g.Ranked rank)
    (hmember : g.member? id = some payload) (hother : g.member? other = some found)
    (hsame : g.expression id = g.expression other) : id = other := by
  refine hranked.induct h (P := fun id => ∀ other found, g.member? other = some found →
    g.expression id = g.expression other → id = other) ?_ hmember other found hother hsame
  intro id payload hmember ih other found hother hsame
  cases hkind : Merging.mergeable payload.kind with
  | false =>
    rw [expression_of_not_mergeable h hranked hmember hkind] at hsame
    cases hkind' : Merging.mergeable found.kind with
    | false =>
      rw [expression_of_not_mergeable h hranked hother hkind'] at hsame
      exact Expression.node.inj (Option.some.inj hsame)
    | true =>
      obtain ⟨operands, -, hexpression⟩ := exists_operands h hranked hother hkind'
      exact Expression.noConfusion (Option.some.inj (hsame.trans hexpression))
  | true =>
    obtain ⟨operands, hoperands, hexpression⟩ := exists_operands h hranked hmember hkind
    cases hkind' : Merging.mergeable found.kind with
    | false =>
      rw [hexpression, expression_of_not_mergeable h hranked hother hkind'] at hsame
      exact Expression.noConfusion (Option.some.inj hsame)
    | true =>
      obtain ⟨operands', hoperands', hexpression'⟩ := exists_operands h hranked hother hkind'
      rw [hexpression, hexpression'] at hsame
      obtain ⟨hhead, rfl⟩ := Expression.operation.inj (Option.some.inj hsame)
      -- Operands with one expression are one by induction, so the two payloads are equal.
      have hinputs : payload.inputEdges = found.inputEdges := by
        refine eq_of_mapM_eq (fun target htarget target' htarget' => ?_) hoperands hoperands'
        obtain ⟨read, hread⟩ := h.member?_of_mem_inputEdges hother htarget'
        exact ih target htarget target' read hread
      have hvalue := isValue_of_mergeable hkind
      have hvalue' := isValue_of_mergeable hkind'
      have hpayload : payload = found := by
        refine Payload.eq_of_head hhead ?_ ?_
        · rw [Payload.inputs_of_isValue hvalue, Payload.inputs_of_isValue hvalue', hinputs]
        · rw [Payload.successors, Payload.successors, Payload.successorSlots_of_isValue hvalue,
            Payload.successorSlots_of_isValue hvalue']
      subst hpayload
      exact hdistinct hmember hother hkind

/-! ## 2. What merging keeps -/

/-- **Members of `start` were merged in `g`**: what is left reads what it read before and is
otherwise the same, and what is never merged is left. -/
structure Shared (start g : Graph) : Prop where
  carried : Carried expressing start g
  size : g.nodes.size = start.nodes.size
  before : ∀ {id payload}, g.member? id = some payload → ∃ found, start.member? id = some found ∧
    payload.head = found.head ∧ payload.successors = found.successors
  stays : ∀ {id payload}, start.member? id = some payload → Merging.mergeable payload.kind = false →
    g.isActive id = true

theorem Shared.refl (h : g.Kept) (hranked : g.Ranked rank) : Shared g g :=
  ⟨.refl _ h hranked, rfl, fun hmember => ⟨_, hmember, rfl, rfl⟩,
    fun hmember _ => isActive_iff.mpr ⟨_, hmember⟩⟩

/-- Payloads with one head are of one kind. -/
theorem kind_eq_of_head (h : payload.head = found.head) : payload.kind = found.kind := by
  have hkind := congrArg Payload.kind h
  rwa [Payload.head, Payload.head, Payload.kind_mapEdges, Payload.kind_mapEdges] at hkind

/-- **Merging a member with its twin keeps all that**: the two have one expression. -/
theorem Shared.merge (h : Shared start g) (hmember : g.member? id = some payload)
    (hkind : Merging.mergeable payload.kind = true) (hcanon : g.member? canon = some payload)
    (hne : canon ≠ id) :
    (replace id canon).Ends g fun r later =>
      r = .ok canon ∧ g.Exchanged id canon later ∧ Shared start later := by
  have hkept := h.carried.kept
  have hvalue := isValue_of_mergeable hkind
  obtain ⟨rank, hranked⟩ := h.carried.ranked
  have hsame : g.expression id = g.expression canon := by
    rw [expression_of_mergeable hkept hranked hmember hkind,
      expression_of_mergeable hkept hranked hcanon hkind]
  obtain ⟨rank', hranked', hle, hends⟩ := exchange_twin hkept hranked hmember hvalue hcanon hne
  refine hends.imp fun r later hend => ?_
  obtain ⟨hok, hexchanged, hrewritten⟩ := hend
  have hstands := hrewritten.standsFor hkept hranked' hcanon hne hle hsame
  refine ⟨hok, hexchanged, h.carried.trans (hrewritten.carried hkept hranked' hstands),
    hexchanged.size.trans h.size, ?_, ?_⟩
  · intro other payload' hother
    obtain ⟨between, hbetween, -, rfl⟩ := hexchanged.exists_before hother
    obtain ⟨found, hfound, hhead, hsuccessors⟩ := h.before hbetween
    refine ⟨found, hfound, (Payload.head_mapEdges _ _).trans hhead, Eq.trans ?_ hsuccessors⟩
    rw [Payload.successors, Payload.successors,
      successorSlots_mapEdges_swap hkept hbetween hmember hvalue]
  · intro other found hfound hkind'
    refine hexchanged.isActive_iff.mpr ⟨?_, h.stays hfound hkind'⟩
    rintro rfl
    obtain ⟨found', hfound', hhead, -⟩ := h.before hmember
    obtain rfl := Option.some.inj (hfound.symm.trans hfound')
    rw [kind_eq_of_head hhead, hkind'] at hkind
    exact Bool.noConfusion hkind

end Graph

namespace Merging

variable {g : Graph} {rank : NodeId → Nat}

/-- **A run merges until no two members have one payload**, and counts the members that are gone. -/
theorem run_shares (hkept : g.Kept) (hranked : g.Ranked rank) :
    run.Ends g fun r g' => ∃ count, r = .ok count ∧ g'.size + count = g.size ∧ g.Shared g' ∧
      g'.Distinct :=
  run_merges (P := fun g' => g.Shared g') (fun h => h.carried.kept) (fun h => h.merge)
    (.refl hkept hranked)

end Merging

/-! ## 3. Reachable graphs -/

namespace Graph

variable {start g : Graph} {rank : NodeId → Nat}

/-- **Merging always comes to an end.**  Where reading is acyclic it succeeds and answers how many
members there are less.  Then no two members that may be merged have one payload, and no two
members have one expression, so that merging again finds nothing. -/
theorem Reachable.merging_shares (h : g.Reachable) :
    Merging.ComesTo (Merging.candidates g g.members) Table.empty 0 g (Merging.run g) ∧
    (g.Acyclic → ∃ merged g', (Merging.run g).result = .ok merged ∧ (Merging.run g).state = g' ∧
      g'.size + merged = g.size ∧ g'.Distinct ∧
      (∀ id other, g'.isActive id = true → g'.isActive other = true →
        g'.expression id = g'.expression other → id = other) ∧
      (Merging.run g').result = .ok 0 ∧ (Merging.run g').state = g') := by
  refine ⟨Merging.comesTo_run h.kept, fun hacyclic => ?_⟩
  obtain ⟨rank, hranked⟩ := hacyclic.exists_ranked h.kept
  obtain ⟨merged, hok, hcount, hshared, hdistinct⟩ := Merging.run_shares h.kept hranked
  obtain ⟨rank', hranked'⟩ := hshared.carried.ranked
  obtain ⟨hagain, hrests⟩ := Merging.run_rests hshared.carried.kept hdistinct
  refine ⟨merged, _, hok, rfl, hcount, fun hmember => hdistinct hmember, ?_, hagain, hrests⟩
  intro id other hactive hactive' hsame
  obtain ⟨payload, hmember⟩ := isActive_iff.mp hactive
  obtain ⟨found, hother⟩ := isActive_iff.mp hactive'
  exact hdistinct.expression_injective hshared.carried.kept hranked' hmember hother hsame

/-- A graph that computes a sum twice, and twice what is made of it and of a reading of one
register. -/
def cascade : Graph :=
  ([.add (.param "x" (.uint 8)), .add (.builtInCall [⟨0⟩, ⟨0⟩] .add (.uint 8)),
    .add (.builtInCall [⟨0⟩, ⟨0⟩] .add (.uint 8)), .add (.builtInCall [⟨1⟩] .not (.uint 8)),
    .add (.builtInCall [⟨2⟩] .not (.uint 8)), .add (.readReg "A" (.uint 8)),
    .add (.readReg "A" (.uint 8)), .add (.builtInCall [⟨3⟩, ⟨5⟩] .mul (.uint 8)),
    .add (.builtInCall [⟨4⟩, ⟨6⟩] .mul (.uint 8)), .add (.writeReg ⟨7⟩ (some ⟨8⟩) "B"),
    .add (.instrEnd [⟨9⟩])] : List Move).foldl (fun g move => move.after g) (empty "f")

/-- One sum goes, and then what was made of it.  The products stay, since each has a reading of its
own. -/
theorem merging_shares_cascade :
    (Merging.run cascade).result = .ok 2 ∧
    (Merging.run cascade).state.members.map NodeId.index = [0, 1, 3, 5, 6, 7, 8, 9, 10] ∧
    (Merging.run cascade).state.Distinct ∧
    (Merging.run (Merging.run cascade).state).result = .ok 0 := by
  have hreachable : cascade.Reachable := reachable_foldl "f" _
  have hacyclic : cascade.Acyclic := acyclic_of_creation (by cbv)
  obtain ⟨-, hshares⟩ := hreachable.merging_shares
  obtain ⟨merged, g', hok, rfl, hcount, hdistinct, -, hagain, -⟩ := hshares hacyclic
  exact ⟨by cbv, by cbv, fun hmember => hdistinct hmember, hagain⟩

/-- **`g` computes what `start` computed**, as far as it still has to. -/
structure SameComputations (start g : Graph) : Prop where
  /-- No node is created. -/
  size : g.nodes.size = start.nodes.size
  /-- Who is left was there, with the same data and successors, and every slot reads the expression
  it read. -/
  reads : ∀ {id payload}, g.member? id = some payload → ∃ found, start.member? id = some found ∧
    payload.head = found.head ∧ payload.successors = found.successors ∧
    payload.inputs.map (Option.map g.expression) = found.inputs.map (Option.map start.expression)
  /-- Control nodes, side effects, readings, calls and names are left, and are told by their place.
  -/
  stays : ∀ {id payload}, start.member? id = some payload →
    payload.kind.isA .control = true ∨ payload.kind.isA .sideEffect = true ∨
      payload.kind ∈ [.readReg, .readRegFile, .readMem, .funcCall, .binding] →
    g.isActive id = true ∧ start.expression id = some (.node id) ∧ g.expression id = some (.node id)
  /-- All members have expressions, before and after. -/
  written : ∀ id, (start.isActive id = true → ∃ e, start.expression id = some e) ∧
    (g.isActive id = true → ∃ e, g.expression id = some e)

theorem Shared.sameComputations (h : Shared start g) (hkept : start.Kept)
    (hranked : start.Ranked rank) :
    SameComputations start g := by
  have hkept' := h.carried.kept
  obtain ⟨rank', hranked'⟩ := h.carried.ranked
  refine ⟨h.size, fun hmember => ?_, fun hmember hkind => ?_, fun id =>
    ⟨fun hactive => ?_, fun hactive => ?_⟩⟩
  · obtain ⟨found, hfound, hhead, hsuccessors⟩ := h.before hmember
    exact ⟨found, hfound, hhead, hsuccessors, h.carried.reads hfound hmember⟩
  · have hmergeable := Merging.mergeable_eq_false_iff.mpr hkind
    have hactive := h.stays hmember hmergeable
    obtain ⟨left, hleft⟩ := isActive_iff.mp hactive
    obtain ⟨found, hfound, hhead, -⟩ := h.before hleft
    obtain rfl := Option.some.inj (hmember.symm.trans hfound)
    exact ⟨hactive, expression_of_not_mergeable hkept hranked hmember hmergeable,
      expression_of_not_mergeable hkept' hranked' hleft (kind_eq_of_head hhead ▸ hmergeable)⟩
  · obtain ⟨payload, hmember⟩ := isActive_iff.mp hactive
    exact exists_expression hkept hranked hmember
  · obtain ⟨payload, hmember⟩ := isActive_iff.mp hactive
    exact exists_expression hkept' hranked' hmember

/-- **Merging preserves every computation** of a graph that reads without cycles. -/
theorem Reachable.merging_keeps_expressions (h : g.Reachable) (hacyclic : g.Acyclic) :
    ∃ merged g', (Merging.run g).result = .ok merged ∧ (Merging.run g).state = g' ∧
      g.SameComputations g' := by
  obtain ⟨rank, hranked⟩ := hacyclic.exists_ranked h.kept
  obtain ⟨merged, hok, -, hshared, -⟩ := Merging.run_shares h.kept hranked
  exact ⟨merged, _, hok, rfl, hshared.sameComputations h.kept hranked⟩

/-- The second product is the same after the merge of what it reads; the readings, which have one
payload, are both there and told apart. -/
theorem merging_keeps_expressions_cascade :
    cascade.SameComputations (Merging.run cascade).state ∧
    (Merging.run cascade).state.member? ⟨8⟩ = some (.builtInCall [⟨3⟩, ⟨6⟩] .mul (.uint 8)) ∧
    cascade.member? ⟨5⟩ = cascade.member? ⟨6⟩ ∧
    (Merging.run cascade).state.expression ⟨5⟩ = some (.node ⟨5⟩) ∧
    (Merging.run cascade).state.expression ⟨6⟩ = some (.node ⟨6⟩) := by
  have hreachable : cascade.Reachable := reachable_foldl "f" _
  have hacyclic : cascade.Acyclic := acyclic_of_creation (by cbv)
  obtain ⟨merged, g', hok, rfl, hsame⟩ := hreachable.merging_keeps_expressions hacyclic
  have hfirst : cascade.member? ⟨5⟩ = some (.readReg "A" (.uint 8)) := by cbv
  have hsecond : cascade.member? ⟨6⟩ = some (.readReg "A" (.uint 8)) := by cbv
  have hkind : Kind.readReg ∈ [.readReg, .readRegFile, .readMem, .funcCall, .binding] := by decide
  exact ⟨hsame, by cbv, hfirst.trans hsecond.symm, (hsame.stays hfirst (.inr (.inr hkind))).2.2,
    (hsame.stays hsecond (.inr (.inr hkind))).2.2⟩

end Graph

end BehaviorGraph
