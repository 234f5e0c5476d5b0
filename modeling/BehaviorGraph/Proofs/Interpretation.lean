/-
# Interpreting members from what they read

Values, types and terms are all read off a graph in the same way: what a member comes to follows
from its payload and from what the targets of its inputs come to.  `Interpretation` collects such
rules, and `Interpretation.value` is what they say about a member if one looks as far behind it as
the arena is large.

Where reading has no cycles that is far enough: **the rules hold of the values** (`value_eq_step`).
Two members with the same payload then come to the same if what they read does, be it in one graph
or in two (`value_eq_of_reads`); and exchanging one member for another that comes to the same
changes no value (`value_of_exchange`).
-/
import BehaviorGraph.Proofs.Dataflow

namespace BehaviorGraph

/-! ## 1. Reading several targets -/

section

variable {α : Type} {targets : List NodeId} {read read' : NodeId → Option α} {f : NodeId → NodeId}

theorem mapM_map_congr (h : ∀ target ∈ targets, read' (f target) = read target) :
    (targets.map f).mapM read' = targets.mapM read := by
  induction targets with
  | nil => rfl
  | cons first targets ih =>
    rw [List.map_cons, List.mapM_cons, List.mapM_cons, h first (by simp),
      ih fun target htarget => h target (List.mem_cons_of_mem first htarget)]

/-- Targets are read one by one. -/
theorem mapM_eq_some_iff {values : List α} : targets.mapM read = some values ↔
    List.Forall₂ (fun target value => read target = some value) targets values := by
  induction targets generalizing values with
  | nil =>
    rw [List.mapM_nil, List.forall₂_nil_left_iff]
    exact ⟨fun h => (Option.some.inj h).symm, fun h => h ▸ rfl⟩
  | cons first targets ih =>
    rw [List.mapM_cons, List.forall₂_cons_left_iff]
    constructor
    · intro h
      obtain ⟨value, hvalue, hrest⟩ := Option.bind_eq_some_iff.mp h
      obtain ⟨rest, hvalues, hcons⟩ := Option.bind_eq_some_iff.mp hrest
      exact ⟨value, rest, hvalue, ih.mp hvalues, (Option.some.inj hcons).symm⟩
    · rintro ⟨value, rest, hvalue, hvalues, rfl⟩
      rw [hvalue, ih.mpr hvalues]
      rfl

theorem exists_mapM (h : ∀ target ∈ targets, ∃ value, read target = some value) :
    ∃ values, targets.mapM read = some values ∧ values.length = targets.length := by
  induction targets with
  | nil => exact ⟨[], rfl, rfl⟩
  | cons first targets ih =>
    obtain ⟨value, hvalue⟩ := h first (by simp)
    obtain ⟨values, hvalues, hlength⟩ := ih fun target htarget =>
      h target (List.mem_cons_of_mem first htarget)
    refine ⟨value :: values, ?_, by simp [hlength]⟩
    rw [List.mapM_cons, hvalue, hvalues]
    rfl

/-- What tells targets apart one by one tells lists of them apart. -/
theorem eq_of_mapM_eq {targets' : List NodeId} {values : List α}
    (hread : ∀ target ∈ targets, ∀ target' ∈ targets', read target = read target' →
      target = target')
    (h : targets.mapM read = some values) (h' : targets'.mapM read = some values) :
    targets = targets' := by
  rw [mapM_eq_some_iff] at h h'
  induction h generalizing targets' with
  | nil => exact (List.forall₂_nil_right_iff.mp h').symm
  | cons hfirst _ ih =>
    cases h' with
    | cons hfirst' hrest' =>
      have heq := hread _ (by simp) _ (by simp) (hfirst.trans hfirst'.symm)
      subst heq
      refine congrArg _ (ih (fun target htarget target' htarget' => ?_) hrest')
      exact hread target (List.mem_cons_of_mem _ htarget) target' (List.mem_cons_of_mem _ htarget')

/-- Reading through a function is reading, and then the function. -/
theorem mapM_of_map {β : Type} {readAs : NodeId → Option β} (φ : α → β)
    (h : ∀ target ∈ targets, readAs target = (read target).map φ) :
    targets.mapM readAs = (targets.mapM read).map (List.map φ) := by
  induction targets with
  | nil => rfl
  | cons first targets ih =>
    rw [List.mapM_cons, List.mapM_cons, h first (by simp),
      ih fun target htarget => h target (List.mem_cons_of_mem first htarget)]
    cases read first with
    | none => rfl
    | some value => cases targets.mapM read <;> rfl

end

/-! ## 2. Interpretations -/

/-- Rules that say what a payload comes to, from what its inputs come to. -/
structure Interpretation (α : Type) where
  step : NodeId → Payload → (NodeId → Option α) → Option α
  /-- **Inputs count only for what their targets come to**, whatever the targets are. -/
  step_mapEdges : ∀ id payload (f : NodeId → NodeId) (read read' : NodeId → Option α),
    (∀ target ∈ payload.inputEdges, read' (f target) = read target) →
      step id (payload.mapEdges f) read' = step id payload read

namespace Interpretation

variable {α : Type} {I I' : Interpretation α} {g g' : Graph} {id id' : NodeId} {payload : Payload}
  {rank rank' : NodeId → Nat}

/-- What a member comes to if one looks `bound` members far. -/
def approx (I : Interpretation α) (g : Graph) : Nat → NodeId → Option α
  | 0, _ => none
  | bound + 1, id => (g.member? id).bind fun payload => I.step id payload (approx I g bound)

/-- **What a member comes to.** -/
def value (I : Interpretation α) (g : Graph) (id : NodeId) : Option α := I.approx g g.nodes.size id

theorem approx_succ (hmember : g.member? id = some payload) (bound : Nat) :
    I.approx g (bound + 1) id = I.step id payload (I.approx g bound) := by
  rw [approx, hmember, Option.bind_some]

theorem step_congr {read read' : NodeId → Option α}
    (h : ∀ target ∈ payload.inputEdges, read' target = read target) :
    I.step id payload read' = I.step id payload read := by
  have hself : payload.mapEdges (fun target => target) = payload :=
    Payload.mapEdges_eq_self fun _ _ => rfl
  rw [← I.step_mapEdges id payload (fun target => target) read read' h, hself]

/-- Looking further than the rank of a member changes nothing. -/
theorem approx_add (h : g.Kept) (hranked : g.Ranked rank) (hmember : g.member? id = some payload)
    {bound : Nat} (hbound : rank id < bound) (more : Nat) :
    I.approx g (bound + more) id = I.approx g bound id := by
  induction bound generalizing id payload with
  | zero => omega
  | succ bound ih =>
    rw [Nat.add_right_comm, approx_succ hmember, approx_succ hmember]
    refine step_congr fun target htarget => ?_
    obtain ⟨found, hfound⟩ := h.member?_of_mem_inputEdges hmember htarget
    have hlt := hranked.falls hmember target htarget
    exact ih hfound (by omega)

/-- **Where reading has no cycles, the rules hold of the values.** -/
theorem value_eq_step (h : g.Kept) (hranked : g.Ranked rank)
    (hmember : g.member? id = some payload) :
    I.value g id = I.step id payload (I.value g) := by
  have hsize := hranked.bounded hmember
  obtain ⟨bound, hbound⟩ : ∃ bound, g.nodes.size = bound + 1 := ⟨g.nodes.size - 1, by omega⟩
  unfold value
  rw [hbound, approx_succ hmember]
  refine step_congr fun target htarget => ?_
  obtain ⟨found, hfound⟩ := h.member?_of_mem_inputEdges hmember htarget
  have hlt := hranked.falls hmember target htarget
  exact (approx_add h hranked hfound (by omega) 1).symm

/-- Rules that agree on the members agree on the values. -/
theorem value_congr (hstep : ∀ {id payload}, g.member? id = some payload →
    I'.step id payload = I.step id payload) : I'.value g = I.value g := by
  have happrox : ∀ bound, I'.approx g bound = I.approx g bound := by
    intro bound
    induction bound with
    | zero => rfl
    | succ bound ih =>
      funext id
      rw [approx, approx, ih]
      cases hmember : g.member? id with
      | none => rfl
      | some payload => rw [Option.bind_some, Option.bind_some, hstep hmember]
  funext id
  exact congrFun (happrox g.nodes.size) id

/-- **Members with the same payload come to the same if what they read does.** -/
theorem value_eq_of_reads (h : g.Kept) (hranked : g.Ranked rank) (h' : g'.Kept)
    (hranked' : g'.Ranked rank') {f : NodeId → NodeId} (hmember : g.member? id = some payload)
    (hmember' : g'.member? id' = some (payload.mapEdges f))
    (hstep : I'.step id' payload = I.step id payload)
    (hreads : ∀ target ∈ payload.inputEdges, I.value g target = I'.value g' (f target)) :
    I.value g id = I'.value g' id' := by
  rw [value_eq_step h hranked hmember, value_eq_step h' hranked' hmember',
    I'.step_mapEdges id' payload f (I.value g) (I'.value g')
      fun target htarget => (hreads target htarget).symm, hstep]

/-- **Exchanging a member for one that comes to the same changes no value.**  That they come to the
same may rest on what the member reads being unchanged. -/
theorem value_of_exchange {old new : NodeId} (h : g.Kept) (hranked : g.Ranked rank) (h' : g'.Kept)
    (hranked' : g'.Ranked rank')
    (hmembers : ∀ {id payload}, id ≠ old → g.member? id = some payload →
      g'.member? id = some (payload.mapEdges (swap old new)))
    (hstep : ∀ {id payload}, id ≠ old → g.member? id = some payload →
      I'.step id payload = I.step id payload)
    (hold : ∀ {payload}, g.member? old = some payload →
      (∀ target ∈ payload.inputEdges, I.value g target = I'.value g' (swap old new target)) →
        I.value g old = I'.value g' new)
    (hmember : g.member? id = some payload) : I.value g id = I'.value g' (swap old new id) := by
  refine hranked.induct h (P := fun id => I.value g id = I'.value g' (swap old new id)) ?_ hmember
  intro id payload hmember hreads
  by_cases hid : id = old
  · subst hid
    rw [swap_self]
    exact hold hmember hreads
  · rw [swap_of_ne hid]
    exact value_eq_of_reads h hranked h' hranked' hmember (hmembers hid hmember)
      (hstep hid hmember) hreads

end Interpretation

end BehaviorGraph
