/-
# Searching for a node

Whether a node can be reached is asked before a replacement, of graphs that may have cycles and for
nodes that need not be there.  `Hunt` is the loop that finds out: it takes the vertex pushed last
from a stack, ends if that is the goal, and pushes what is next to the vertex if it meets it for
the first time.  A vertex is pushed as often as edges lead to it, and nothing bounds the loop from
outside.

**The loop always ends, and `Graph.reaches` is its answer** (`hunt_iff_reaches`): each vertex is
new only once, so the vertices in sight bound the rounds (`Sighted`), and up to the goal the loop
does what `search` does (`hunt_of_sighted`).  As `search` leaves nothing out (`mem_search_iff`),
**the answer is yes exactly if the goal is the source or a path of stored edges leads to it**
(`Graph.reaches_decides`).
-/
import BehaviorGraph.Proofs.Cycles

namespace BehaviorGraph

/-! ## 1. The loop -/

section Hunt

variable {α : Type} {next : α → List α} {goal : α} {stack seen : List α} {found found' : Bool}

/-- **What a search for one vertex comes to**, if it comes to an end: the stack, what was seen
before, and whether the goal is met. -/
inductive Hunt (next : α → List α) (goal : α) : List α → List α → Bool → Prop where
  /-- Nothing is left to look at. -/
  | exhausted {seen : List α} : Hunt next goal [] seen false
  | met {rest seen : List α} : Hunt next goal (goal :: rest) seen true
  | again {v : α} {rest seen : List α} {found : Bool} (hother : v ≠ goal) (hseen : v ∈ seen)
    (hrest : Hunt next goal rest seen found) : Hunt next goal (v :: rest) seen found
  /-- What is next to a new vertex is pushed one by one, so the last of it is looked at first. -/
  | new {v : α} {rest seen : List α} {found : Bool} (hother : v ≠ goal) (hnew : v ∉ seen)
    (hrest : Hunt next goal ((next v).reverse ++ rest) (v :: seen) found) :
    Hunt next goal (v :: rest) seen found

/-- **The loop leaves no choice**, so it comes to one answer at most. -/
theorem Hunt.unique (h : Hunt next goal stack seen found) (h' : Hunt next goal stack seen found') :
    found = found' := by
  induction h with
  | exhausted =>
    cases h'
    rfl
  | met =>
    cases h' with
    | met => rfl
    | again hother => exact absurd rfl hother
    | new hother => exact absurd rfl hother
  | again hother hseen _ ih =>
    cases h' with
    | met => exact absurd rfl hother
    | again _ _ hrest => exact ih hrest
    | new _ hnew => exact absurd hseen hnew
  | new hother hnew _ ih =>
    cases h' with
    | met => exact absurd rfl hother
    | again _ hseen => exact absurd hseen hnew
    | new _ _ hrest => exact ih hrest

variable [DecidableEq α]

/-- What was seen stays among what a search finds. -/
theorem mem_search_of_mem {v : α} {bound : Nat} (h : v ∈ seen) :
    v ∈ search next bound stack seen := by
  fun_induction search next bound stack seen with
  | case1 => exact h
  | case2 bound seen first rest hfirst ih => exact ih h
  | case3 => exact h
  | case4 seen first rest hfirst bound ih => exact ih (List.mem_cons_of_mem first h)

/-- **The loop ends where all is in sight.**  It does what a search does that takes the vertices up
in the same order but goes on after the goal, so its answer is whether the goal is among what that
search finds. -/
theorem hunt_of_sighted {sight : List α} {bound : Nat} (hsight : ∀ v, ∀ w ∈ next v, w ∈ sight)
    (h : Sighted sight stack seen bound) (hgoal : goal ∉ seen) :
    Hunt next goal stack seen
      (decide (goal ∈ search (fun v => (next v).reverse) bound stack seen)) := by
  have hpushed : ∀ v, ∀ w ∈ (next v).reverse, w ∈ sight := fun v w hw =>
    hsight v w (List.mem_reverse.mp hw)
  fun_induction search (fun v => (next v).reverse) bound stack seen with
  | case1 bound seen =>
    rw [decide_eq_false hgoal]
    exact .exhausted
  | case2 bound seen first rest hfirst ih =>
    have hother : first ≠ goal := fun hsame => hgoal (hsame ▸ hfirst)
    exact .again hother hfirst (ih h.drop hgoal)
  | case3 seen first rest hfirst =>
    obtain ⟨less, hless, -⟩ := h.visit hfirst (hpushed first)
    exact absurd hless (by simp)
  | case4 seen first rest hfirst bound ih =>
    obtain ⟨less, hless, hnext⟩ := h.visit hfirst (hpushed first)
    obtain rfl := Nat.succ.inj hless
    by_cases hmet : first = goal
    · subst hmet
      rw [decide_eq_true (mem_search_of_mem List.mem_cons_self)]
      exact .met
    · refine .new hmet hfirst (ih hnext fun hin => ?_)
      rcases List.mem_cons.mp hin with hsame | hin
      · exact hmet hsame.symm
      · exact hgoal hin

/-- **A hunt from one vertex ends, and tells whether a path leads to the goal.** -/
theorem hunt_from {sight : List α} {source : α} (goal : α) (hsight : ∀ v, ∀ w ∈ next v, w ∈ sight)
    (hsource : source ∈ sight) :
    ∃ found, Hunt next goal [source] [] found ∧
      (found = true ↔ Relation.ReflTransGen (fun a b => b ∈ next a) source goal) := by
  have hpushed : ∀ v, ∀ w ∈ (next v).reverse, w ∈ sight := fun v w hw =>
    hsight v w (List.mem_reverse.mp hw)
  refine ⟨_, hunt_of_sighted hsight (sighted_start hsource (Nat.le_refl _)) List.not_mem_nil, ?_⟩
  rw [decide_eq_true_iff, mem_search_iff sight hpushed hsource (Nat.le_refl _)]
  simp only [List.mem_reverse]

end Hunt

/-! ## 2. Reaching a node -/

namespace Graph

variable {g : Graph} {source goal user target : NodeId}

/-- **A stored edge**: an input or a successor of a node, whatever the states of the two nodes. -/
def Joins (g : Graph) (user target : NodeId) : Prop :=
  some target ∈ g.inputs user ∨ some target ∈ g.successors user

theorem mem_edges_iff_joins : target ∈ g.edges user ↔ g.Joins user target := by
  unfold edges Joins inputs successors
  cases g.payload? user with
  | none => simp
  | some payload =>
    simp only [Payload.mem_edges_iff, Payload.slots, Payload.inputs, Payload.successors,
      List.mem_append, List.mem_map, or_and_right, exists_or]

/-- **The loop answers what the graph answers**, whatever the two nodes are. -/
theorem hunt_iff_reaches {found : Bool} :
    Hunt g.edges goal [source] [] found ↔ found = g.reaches source goal := by
  have hsight : ∀ v, ∀ w ∈ g.edges v, w ∈ source :: g.targets := fun v w hw =>
    List.mem_cons_of_mem _ (mem_targets hw)
  obtain ⟨answer, hhunt, hpath⟩ := hunt_from goal hsight List.mem_cons_self
  have hsame : answer = g.reaches source goal := by
    rw [Bool.eq_iff_iff, hpath, reaches_eq_true_iff]
  constructor
  · exact fun h => (h.unique hhunt).trans hsame
  · rintro rfl
    exact hsame ▸ hhunt

/-- **Whether a node can be reached is decided** for every graph and any two identities.  The
search ends with exactly one answer, the one the graph gives, and it is yes if and only if the two
are the same or a path of stored edges leads from the first to the second. -/
theorem reaches_decides (g : Graph) (source goal : NodeId) :
    (∀ found, Hunt g.edges goal [source] [] found ↔ found = g.reaches source goal) ∧
    (g.reaches source goal = true ↔ source = goal ∨ Relation.TransGen g.Joins source goal) := by
  refine ⟨fun found => hunt_iff_reaches, ?_⟩
  have hedges : (fun user target => target ∈ g.edges user) = g.Joins := by
    funext user target
    exact propext mem_edges_iff_joins
  rw [reaches_eq_true_iff, hedges, Relation.reflTransGen_iff_eq_or_transGen, eq_comm]

/-- Two nodes that read each other, and a third place that no node was created for. -/
example :
    let g : Graph := { empty "f" with
      nodes := #[{ payload := .binding ⟨1⟩ "a" }, { payload := .binding ⟨0⟩ "b" }] }
    g.reaches ⟨0⟩ ⟨0⟩ = true ∧ g.reaches ⟨1⟩ ⟨0⟩ = true ∧ g.reaches ⟨0⟩ ⟨2⟩ = false ∧
      g.reaches ⟨2⟩ ⟨2⟩ = true := by cbv

end Graph

end BehaviorGraph
