/-
# Values written out as terms

A value can be written out: what it is, its edges left aside, and the terms of what it reads.
Sharing and the places in the arena do not show in a term, so terms of different graphs can be
compared.

Terms for parameters can be put in all at once (`Term.subst`).  Where reading has no cycles every
member has a term (`Graph.exists_term`), and writing a value out with terms in place of parameters
is the same as putting them in afterwards (`Graph.value_substituting`).
-/
import BehaviorGraph.Proofs.Interpretation

namespace BehaviorGraph

/-! ## 1. Terms -/

/-- A payload whose edges do not count, and the terms of what it reads. -/
inductive Term where
  | node (head : Payload) (inputs : List Term)

mutual

/-- **Put terms in place of parameters**, all at once: what is put in stays as it is, and so does a
parameter that nothing is given for. -/
def Term.subst (given : String → Option Term) : Term → Term
  | .node (.param name type) inputs => (given name).getD (.node (.param name type) inputs)
  | .node head inputs => .node head (Term.substAll given inputs)

def Term.substAll (given : String → Option Term) : List Term → List Term
  | [] => []
  | term :: terms => term.subst given :: Term.substAll given terms

end

theorem Term.substAll_eq_map (given : String → Option Term) (terms : List Term) :
    Term.substAll given terms = terms.map (Term.subst given) := by
  induction terms with
  | nil => rfl
  | cons term terms ih => rw [Term.substAll, ih, List.map_cons]

/-- What a payload is, wherever its edges lead. -/
def Payload.head (payload : Payload) : Payload := payload.mapEdges fun _ => ⟨0⟩

theorem Payload.head_mapEdges (f : NodeId → NodeId) (payload : Payload) :
    (payload.mapEdges f).head = payload.head := by
  rw [Payload.head, Payload.mapEdges_mapEdges, Payload.head]

/-- **Payloads with one head and the same edges are the same.** -/
theorem Payload.eq_of_head {payload found : Payload} (hhead : payload.head = found.head)
    (hinputs : payload.inputs = found.inputs)
    (hsuccessors : payload.successors = found.successors) :
    payload = found :=
  calc payload
      = (payload.head.assignInputs payload.inputs).assignSuccessors payload.successors :=
        (payload.assign_mapEdges _).symm
    _ = (found.head.assignInputs found.inputs).assignSuccessors found.successors := by
        rw [hhead, hinputs, hsuccessors]
    _ = found := found.assign_mapEdges _

/-- What a payload is written as, from the terms of what it reads. -/
def Payload.written (payload : Payload) (read : NodeId → Option Term) : Option Term :=
  (payload.inputEdges.mapM read).map (Term.node payload.head)

theorem Payload.written_mapEdges {payload : Payload} {f : NodeId → NodeId}
    {read read' : NodeId → Option Term}
    (h : ∀ target ∈ payload.inputEdges, read' (f target) = read target) :
    (payload.mapEdges f).written read' = payload.written read := by
  rw [Payload.written, Payload.inputEdges_mapEdges, mapM_map_congr h, Payload.head_mapEdges,
    Payload.written]

/-! ## 2. Writing out -/

/-- How values are written out. -/
def writing : Interpretation Term where
  step _ payload read := payload.written read
  step_mapEdges _ _ _ _ _ h := Payload.written_mapEdges h

/-- How values are written out with terms in place of parameters. -/
def substituting (given : String → Option Term) : Interpretation Term where
  step _ payload read :=
    match payload with
    | .param name type => some ((given name).getD (.node (.param name type) []))
    | payload => payload.written read
  step_mapEdges := by
    intro id payload f read read' h
    cases payload with
    | param name type => rfl
    | _ => exact Payload.written_mapEdges h

namespace Graph

variable {g : Graph} {id : NodeId} {payload : Payload} {rank : NodeId → Nat}

/-- **A node of a graph as a term.** -/
def term (g : Graph) (id : NodeId) : Option Term := writing.value g id

theorem term_eq (h : g.Kept) (hranked : g.Ranked rank) (hmember : g.member? id = some payload) :
    g.term id = payload.written g.term :=
  Interpretation.value_eq_step h hranked hmember

/-- **Every member has a term.** -/
theorem exists_term (h : g.Kept) (hranked : g.Ranked rank) (hmember : g.member? id = some payload) :
    ∃ term, g.term id = some term := by
  refine hranked.induct h (P := fun id => ∃ term, g.term id = some term) ?_ hmember
  intro id payload hmember hreads
  obtain ⟨inputs, hinputs, -⟩ := exists_mapM hreads
  exact ⟨.node payload.head
    inputs, by rw [term_eq h hranked hmember, Payload.written, hinputs]; rfl⟩

/-- **Terms may stand for parameters from the beginning, or be put in afterwards.** -/
theorem value_substituting (h : g.Kept) (hranked : g.Ranked rank) (given : String → Option Term)
    (hmember : g.member? id = some payload) :
    (substituting given).value g id = (g.term id).map (Term.subst given) := by
  refine hranked.induct h (P := fun id =>
    (substituting given).value g id = (g.term id).map (Term.subst given)) ?_ hmember
  intro id payload hmember hreads
  have hwritten : payload.written ((substituting given).value g)
    = (payload.inputEdges.mapM g.term).map
      fun inputs => .node payload.head (Term.substAll given inputs) := by
    rw [Payload.written, mapM_of_map _ hreads, Option.map_map]
    exact congrArg (fun f => Option.map f _)
      (funext fun inputs => congrArg _ (Term.substAll_eq_map given inputs).symm)
  rw [term_eq h hranked hmember, Interpretation.value_eq_step h hranked hmember, Payload.written,
    Option.map_map]
  cases payload with
  | param name type => rfl
  | _ => exact hwritten

end Graph

end BehaviorGraph
