/-
# Orders in which every edge points forward

A depth-first walk lists each vertex in front of everything it finished before.  What an edge of a
finished vertex leads to was finished earlier, or it was still under way and **leads back to the
vertex** (`Traced`).  So either every edge points forward in the list or there is a cycle, and the
walk names a vertex on it (`order?_cases`); where there are no cycles there is an order
(`order?_eq_ok`).

Two orders of the library rest on this.  The members of a graph whose reading has no cycles have a
dataflow order (`dataflowOrder_eq_ok`), and definitions whose calls have no cycles can be scheduled
(`schedule_eq_ok`).
-/
import BehaviorGraph.Order.Calls
import BehaviorGraph.Order.Dataflow
import BehaviorGraph.Proofs.Dataflow

namespace BehaviorGraph

namespace Digraph

variable {α : Type} {g : Digraph α} {u v w : α}

/-! ## 1. Edges -/

/-- An edge leads from `u` to `v`. -/
def Edge (g : Digraph α) (u v : α) : Prop := (u, v) ∈ g.edges

/-- No vertex leads back to itself. -/
def Acyclic (g : Digraph α) : Prop := ∀ v, ¬ Relation.TransGen g.Edge v v

/-- Edges connect vertices. -/
def Closed (g : Digraph α) : Prop := ∀ {u v}, g.Edge u v → u ∈ g.vertices ∧ v ∈ g.vertices

section Adding

variable [DecidableEq α]

/-- What is next to a vertex is what its edges lead to. -/
theorem mem_next_iff : v ∈ g.next u ↔ g.Edge u v := by
  simp [next, Edge]

/-- And what is in front of it is where its edges come from. -/
theorem mem_previous_iff : u ∈ g.previous v ↔ g.Edge u v := by
  simp [previous, Edge]

/-- Adding a vertex that is there already adds nothing. -/
theorem mem_vertices_addVertex : v ∈ (g.addVertex u).vertices ↔ v ∈ g.vertices ∨ v = u := by
  unfold addVertex
  split
  · rename_i hmem
    exact ⟨Or.inl, fun h => h.elim id fun heq => heq ▸ hmem⟩
  · simp

@[simp] theorem edges_addVertex (g : Digraph α) (u : α) : (g.addVertex u).edges = g.edges := by
  unfold addVertex
  split <;> rfl

/-- An edge brings its ends with it. -/
theorem mem_vertices_addEdge :
    w ∈ (g.addEdge u v).vertices ↔ w ∈ g.vertices ∨ w = u ∨ w = v := by
  have hends : w ∈ ((g.addVertex u).addVertex v).vertices ↔ w ∈ g.vertices ∨ w = u ∨ w = v := by
    rw [mem_vertices_addVertex, mem_vertices_addVertex, or_assoc]
  simp only [addEdge]
  split <;> exact hends

/-- It is the only new edge. -/
theorem edge_addEdge {x y : α} : (g.addEdge u v).Edge x y ↔ g.Edge x y ∨ (x = u ∧ y = v) := by
  simp only [addEdge, Edge, edges_addVertex]
  split
  · rename_i hmem
    rw [edges_addVertex, edges_addVertex]
    refine ⟨Or.inl, fun h => h.elim id ?_⟩
    rintro ⟨rfl, rfl⟩
    exact hmem
  · simp

/-- A new edge between vertices keeps the graph closed. -/
theorem Closed.addEdge (h : g.Closed) : (g.addEdge u v).Closed := by
  intro x y hedge
  rw [mem_vertices_addEdge, mem_vertices_addEdge]
  rcases edge_addEdge.mp hedge with hold | ⟨rfl, rfl⟩
  · exact ⟨Or.inl (h hold).1, Or.inl (h hold).2⟩
  · exact ⟨Or.inr (Or.inl rfl), Or.inr (Or.inr rfl)⟩

/-- Add edges one after the other. -/
def addEdges (g : Digraph α) (pairs : List (α × α)) : Digraph α :=
  pairs.foldl (fun g pair => g.addEdge pair.1 pair.2) g

/-- The ways from one vertex are added one after the other. -/
theorem foldl_addEdge (g : Digraph α) (u : α) (targets : List α) :
    targets.foldl (fun g target => g.addEdge u target) g
      = g.addEdges (targets.map fun target => (u, target)) := by
  rw [addEdges, List.foldl_map]

/-- The same of a list of edges. -/
theorem edge_addEdges {pairs : List (α × α)} :
    (g.addEdges pairs).Edge u v ↔ g.Edge u v ∨ (u, v) ∈ pairs := by
  induction pairs generalizing g with
  | nil => simp [addEdges]
  | cons pair pairs ih =>
    obtain ⟨x, y⟩ := pair
    have hstep : g.addEdges ((x, y) :: pairs) = (g.addEdge x y).addEdges pairs := rfl
    rw [hstep, ih, edge_addEdge, List.mem_cons, Prod.mk.injEq, or_assoc]

/-- And of their ends. -/
theorem mem_vertices_addEdges {pairs : List (α × α)} :
    w ∈ (g.addEdges pairs).vertices ↔ w ∈ g.vertices ∨ ∃ pair ∈ pairs, w = pair.1 ∨ w = pair.2 := by
  induction pairs generalizing g with
  | nil => simp [addEdges]
  | cons pair pairs ih =>
    have hstep : g.addEdges (pair :: pairs) = (g.addEdge pair.1 pair.2).addEdges pairs := rfl
    rw [hstep, ih, mem_vertices_addEdge, List.exists_mem_cons_iff, or_assoc]

/-- So edges go on to connect vertices. -/
theorem Closed.addEdges (h : g.Closed) (pairs : List (α × α)) : (g.addEdges pairs).Closed := by
  induction pairs generalizing g with
  | nil => exact h
  | cons pair pairs ih => exact ih h.addEdge

end Adding

/-! ## 2. The walk -/

/-- What each vertex of a list leads to stands behind it. -/
def Forward (g : Digraph α) : List α → Prop
  | [] => True
  | v :: rest => (∀ w, g.Edge v w → w ∈ rest) ∧ Forward g rest

/-- What a vertex of such an order leads to is in it. -/
theorem Forward.mem_of_edge {order : List α} (h : g.Forward order) (hu : u ∈ order)
    (hedge : g.Edge u v) : v ∈ order := by
  induction order with
  | nil => exact absurd hu (by simp)
  | cons first rest ih =>
    rcases List.mem_cons.mp hu with rfl | hu
    · exact List.mem_cons_of_mem u (h.1 v hedge)
    · exact List.mem_cons_of_mem first (ih h.2 hu)

/-- In a list in which every edge points forward, the source of an edge stands first. -/
theorem Forward.suffix {order rest : List α} (h : g.Forward order) (hrest : rest <:+ order) :
    g.Forward rest := by
  obtain ⟨front, rfl⟩ := hrest
  induction front with
  | nil => exact h
  | cons first front ih => exact ih h.2

/-- **In a forward order an edge leads to a later place.** -/
theorem Forward.idxOf_lt [DecidableEq α] {order : List α} (h : g.Forward order)
    (hnodup : order.Nodup) (hu : u ∈ order) (hedge : g.Edge u v) :
    order.idxOf u < order.idxOf v := by
  induction order with
  | nil => exact absurd hu (by simp)
  | cons first rest ih =>
    obtain ⟨hfresh, hnodup⟩ := List.nodup_cons.mp hnodup
    rcases List.mem_cons.mp hu with rfl | hin
    · have hne : u ≠ v := fun heq => hfresh (heq ▸ h.1 v hedge)
      rw [List.idxOf_cons_self, List.idxOf_cons_ne _ hne]
      exact Nat.succ_pos _
    · have hneu : first ≠ u := fun heq => hfresh (heq ▸ hin)
      have hnev : first ≠ v := fun heq => hfresh (heq ▸ h.2.mem_of_edge hin hedge)
      rw [List.idxOf_cons_ne _ hneu, List.idxOf_cons_ne _ hnev]
      exact Nat.succ_lt_succ (ih h.2 hnodup hin)

/-- A list in which every edge points forward closes no cycle. -/
theorem Forward.acyclic {order : List α} (h : g.Forward order) (hnodup : order.Nodup)
    (hmem : ∀ {u v}, g.Edge u v → u ∈ order) : g.Acyclic := by
  classical
  have hrises : ∀ {u v}, Relation.TransGen g.Edge u v → order.idxOf u < order.idxOf v := by
    intro u v hpath
    induction hpath with
    | single hedge => exact h.idxOf_lt hnodup (hmem hedge) hedge
    | tail _ hedge ih => exact ih.trans (h.idxOf_lt hnodup (hmem hedge) hedge)
  exact fun v hcycle => Nat.lt_irrefl _ (hrises hcycle)

/-- What each vertex of a list leads to stands behind it, **or leads back to it**. -/
def Traced (g : Digraph α) : List α → Prop
  | [] => True
  | v :: rest => (∀ w, g.Edge v w → w ∈ rest ∨ Relation.ReflTransGen g.Edge w v) ∧ Traced g rest

/-- An edge of a vertex that was finished leads into the list, or the other end leads back. -/
theorem Traced.leads_back {order : List α} (h : g.Traced order) (hu : u ∈ order)
    (hedge : g.Edge u v) : v ∈ order ∨ Relation.ReflTransGen g.Edge v u := by
  induction order with
  | nil => exact absurd hu (by simp)
  | cons first rest ih =>
    rcases List.mem_cons.mp hu with rfl | hu
    · exact (h.1 v hedge).imp_left (List.mem_cons_of_mem u)
    · exact (ih h.2 hu).imp_left (List.mem_cons_of_mem first)

/-- The vertices still to be left. -/
def underWay : List (Task α) → List α
  | [] => []
  | .enter _ :: rest => underWay rest
  | .leave v :: rest => v :: underWay rest

/-- The vertices the pending steps are about. -/
def subjects : List (Task α) → List α
  | [] => []
  | .enter v :: rest => v :: subjects rest
  | .leave v :: rest => v :: subjects rest

/-- **Everything a vertex has an edge to is finished before the vertex is left**: it is finished
now, or it is among `soon`, the vertices of the steps in front; or else it leads back to the
vertex.  The vertices of the steps in front are all vertices it leads to. -/
def Planned (g : Digraph α) (finished : List α) : List α → List (Task α) → Prop
  | _, [] => True
  | soon, .enter v :: rest => Planned g finished (v :: soon) rest
  | soon, .leave v :: rest =>
    (∀ w, g.Edge v w → w ∈ finished ∨ w ∈ soon ∨ Relation.ReflTransGen g.Edge w v) ∧
      (∀ w ∈ soon, Relation.TransGen g.Edge v w) ∧ Planned g finished (v :: soon) rest

/-- What is planned stays so when more is finished, and when the vertices in front are finished or
replaced by vertices they lead to. -/
theorem Planned.mono {finished finished' soon soon' : List α} {tasks : List (Task α)}
    (h : g.Planned finished soon tasks) (hfinished : ∀ w ∈ finished, w ∈ finished')
    (hsoon : ∀ w ∈ soon, w ∈ finished' ∨ w ∈ soon')
    (hback : ∀ w ∈ soon', ∃ u ∈ soon, Relation.ReflTransGen g.Edge u w) :
    g.Planned finished' soon' tasks := by
  induction tasks generalizing soon soon' with
  | nil => trivial
  | cons task rest ih =>
    have hcons : ∀ v, (∀ w ∈ v :: soon, w ∈ finished' ∨ w ∈ v :: soon') ∧
        ∀ w ∈ v :: soon', ∃ u ∈ v :: soon, Relation.ReflTransGen g.Edge u w := by
      intro v
      constructor
      · intro w hw
        rcases List.mem_cons.mp hw with rfl | hw
        · exact Or.inr (by simp)
        · exact (hsoon w hw).imp_right (List.mem_cons_of_mem v)
      · intro w hw
        rcases List.mem_cons.mp hw with rfl | hw
        · exact ⟨w, by simp, .refl⟩
        · obtain ⟨u, hu, hpath⟩ := hback w hw
          exact ⟨u, List.mem_cons_of_mem v hu, hpath⟩
    cases task with
    | enter v => exact ih h (hcons v).1 (hcons v).2
    | leave v =>
      obtain ⟨hnext, hreach, hrest⟩ := h
      refine ⟨fun w hedge => ?_, fun w hw => ?_, ih hrest (hcons v).1 (hcons v).2⟩
      · rcases hnext w hedge with hdone | hin | hback
        · exact Or.inl (hfinished w hdone)
        · exact (hsoon w hin).imp_right Or.inl
        · exact Or.inr (Or.inr hback)
      · obtain ⟨u, hu, hpath⟩ := hback w hw
        exact (hreach u hu).trans_left hpath

/-- Targets that are entered are in front of everything behind them. -/
theorem planned_append_enter {finished : List α} (targets soon : List α) (rest : List (Task α)) :
    g.Planned finished soon (targets.map .enter ++ rest)
      ↔ g.Planned finished (targets.reverse ++ soon) rest := by
  induction targets generalizing soon with
  | nil => rfl
  | cons target targets ih =>
    rw [List.map_cons, List.cons_append, List.reverse_cons, List.append_assoc]
    exact ih (target :: soon)

/-- A vertex that is still to be left leads to the vertices of the steps in front. -/
theorem Planned.reaches {finished soon : List α} {tasks : List (Task α)}
    (h : g.Planned finished soon tasks) (hv : v ∈ underWay tasks) (hw : w ∈ soon) :
    Relation.TransGen g.Edge v w := by
  induction tasks generalizing soon with
  | nil => exact absurd hv (by simp [underWay])
  | cons task rest ih =>
    cases task with
    | enter first => exact ih h hv (List.mem_cons_of_mem first hw)
    | leave first =>
      rcases List.mem_cons.mp hv with rfl | hv
      · exact h.2.1 w hw
      · exact ih h.2.2 hv (List.mem_cons_of_mem first hw)

/-- **A vertex that is under way need not be planned again.**  It leads to those that are left
before it, and is in front of all others anyway. -/
theorem Planned.forget {finished soon soon' : List α} {tasks : List (Task α)}
    (h : g.Planned finished soon tasks) (hv : v ∈ underWay tasks)
    (hsoon : ∀ w, w ∈ soon ↔ w = v ∨ w ∈ soon') : g.Planned finished soon' tasks := by
  induction tasks generalizing soon soon' with
  | nil => trivial
  | cons task rest ih =>
    have hcons : ∀ first w, w ∈ first :: soon ↔ w = v ∨ w ∈ first :: soon' := by
      intro first w
      rw [List.mem_cons, List.mem_cons, hsoon]
      exact or_left_comm
    cases task with
    | enter first => exact ih h hv (hcons first)
    | leave first =>
      obtain ⟨hnext, hreach, hrest⟩ := h
      refine ⟨fun w hedge => ?_, fun w hw => hreach w ((hsoon w).mpr (Or.inr hw)), ?_⟩
      · rcases hnext w hedge with hdone | hin | hback
        · exact Or.inl hdone
        · rcases (hsoon w).mp hin with rfl | hin
          · rcases List.mem_cons.mp hv with rfl | hv
            · exact Or.inr (Or.inr .refl)
            · exact Or.inr (Or.inr (hrest.reaches hv List.mem_cons_self).to_reflTransGen)
          · exact Or.inr (Or.inl hin)
        · exact Or.inr (Or.inr hback)
      · rcases List.mem_cons.mp hv with rfl | hv
        · refine hrest.mono (fun _ => id) (fun w hw => Or.inr ?_) fun w hw => ⟨w, ?_, .refl⟩
          · exact ((hcons v w).mp hw).elim (fun heq => heq ▸ List.mem_cons_self) id
          · exact (hcons v w).mpr (Or.inr hw)
        · exact ih hrest hv (hcons first)

/-- Steps that enter leave nothing under way. -/
theorem underWay_append_enter (targets : List α) (rest : List (Task α)) :
    underWay (targets.map .enter ++ rest) = underWay rest := by
  induction targets with
  | nil => rfl
  | cons target targets ih => exact ih

/-- They are about what they enter. -/
theorem subjects_append_enter (targets : List α) (rest : List (Task α)) :
    subjects (targets.map .enter ++ rest) = targets ++ subjects rest := by
  induction targets with
  | nil => rfl
  | cons target targets ih =>
    rw [List.map_cons, List.cons_append, List.cons_append, ← ih]
    rfl

theorem subjects_map_enter (vertices : List α) : subjects (vertices.map .enter) = vertices := by
  simpa [subjects] using subjects_append_enter vertices []

theorem underWay_map_enter (vertices : List α) :
    underWay (vertices.map (.enter : α → Task α)) = [] := by
  simpa [underWay] using underWay_append_enter vertices []

/-- **The invariant of the walk.** -/
structure Walking (g : Digraph α) (bound : Nat) (tasks : List (Task α))
    (discovered finished : List α) : Prop where
  traced : g.Traced finished
  nodup : (underWay tasks ++ finished).Nodup
  /-- What was discovered is finished or still to be left. -/
  found : ∀ v, v ∈ discovered ↔ v ∈ underWay tasks ++ finished
  length : discovered.length = (underWay tasks ++ finished).length
  /-- Nothing that was discovered has an edge to itself. -/
  loopless : ∀ v ∈ discovered, ¬ g.Edge v v
  /-- There is enough left of the bound for what is not discovered. -/
  bound : g.vertices.length ≤ bound + discovered.length
  planned : g.Planned finished [] tasks
  /-- The steps and the list together are about all vertices, and about nothing else. -/
  vertices : ∀ v, v ∈ subjects tasks ++ finished ↔ v ∈ g.vertices

theorem subset_subjects {tasks : List (Task α)} (h : v ∈ underWay tasks) : v ∈ subjects tasks := by
  induction tasks with
  | nil => exact h
  | cons task rest ih =>
    cases task with
    | enter first => exact List.mem_cons_of_mem first (ih h)
    | leave first =>
      rcases List.mem_cons.mp h with rfl | h
      · exact List.mem_cons_self
      · exact List.mem_cons_of_mem first (ih h)

section Steps

variable {bound : Nat} {rest : List (Task α)} {discovered finished : List α}

/-- Leaving a vertex puts it in front. -/
theorem Walking.leave (h : g.Walking bound (.leave v :: rest) discovered finished) :
    g.Walking bound rest discovered (v :: finished) := by
  obtain ⟨hnext, -, hrest⟩ := h.planned
  have hperm : (underWay rest ++ v :: finished).Perm (underWay (.leave v :: rest) ++ finished) :=
    List.perm_middle
  refine ⟨⟨fun w hedge => (hnext w hedge).imp_right fun hsoon =>
    hsoon.resolve_left (by simp), h.traced⟩,
    hperm.nodup_iff.mpr h.nodup, fun w => ?_, ?_, h.loopless, h.bound, ?_, fun w => ?_⟩
  · rw [h.found, hperm.mem_iff]
  · rw [h.length, hperm.length_eq]
  · refine hrest.mono (fun w => List.mem_cons_of_mem v) ?_ (by simp)
    intro w hw
    rw [List.mem_singleton.mp hw]
    exact Or.inl (by simp)
  · have hsubjects :
        (subjects rest ++ v :: finished).Perm (subjects (.leave v :: rest) ++ finished) :=
      List.perm_middle
    rw [← h.vertices w]
    exact hsubjects.mem_iff

/-- What was discovered before is finished or under way, and need not be planned again. -/
theorem Walking.skip (h : g.Walking bound (.enter v :: rest) discovered finished)
    (hv : v ∈ discovered) : g.Walking bound rest discovered finished := by
  have hplanned : g.Planned finished [v] rest := h.planned
  have hfound : v ∈ underWay rest ∨ v ∈ finished := List.mem_append.mp ((h.found v).mp hv)
  refine ⟨h.traced, h.nodup, h.found, h.length, h.loopless, h.bound, ?_, fun w => ?_⟩
  · rcases hfound with hopen | hdone
    · exact hplanned.forget hopen (by simp)
    · refine hplanned.mono (fun _ => id) ?_ (by simp)
      intro w hw
      rw [List.mem_singleton.mp hw]
      exact Or.inl hdone
  · rw [← h.vertices w]
    constructor
    · exact fun hw => List.mem_cons_of_mem v hw
    · intro hw
      rcases List.mem_cons.mp hw with rfl | hw
      · rcases hfound with hopen | hdone
        · exact List.mem_append_left _ (subset_subjects hopen)
        · exact List.mem_append_right _ hdone
      · exact hw

/-- As long as a vertex is not discovered the bound is not used up. -/
theorem Walking.bound_pos (h : g.Walking bound (.enter v :: rest) discovered finished)
    (hv : v ∉ discovered) : bound ≠ 0 := by
  have hnodup : (v :: (underWay rest ++ finished)).Nodup :=
    List.nodup_cons.mpr ⟨fun hmem => hv ((h.found v).mpr hmem), h.nodup⟩
  have hsub : v :: (underWay rest ++ finished) ⊆ g.vertices := by
    intro w hw
    rw [← h.vertices w]
    rcases List.mem_cons.mp hw with rfl | hw
    · exact List.mem_append_left _ List.mem_cons_self
    · rcases List.mem_append.mp hw with hw | hw
      · exact List.mem_append_left _ (List.mem_cons_of_mem v (subset_subjects hw))
      · exact List.mem_append_right _ hw
  have hlength := (hnodup.subperm hsub).length_le
  have hsame : discovered.length = (underWay rest ++ finished).length := h.length
  have hbound := h.bound
  rw [List.length_cons] at hlength
  omega

variable [DecidableEq α]

/-- A vertex that is discovered is to be left behind everything it leads to. -/
theorem Walking.enter (h : g.Walking (bound + 1) (.enter v :: rest) discovered finished)
    (hclosed : g.Closed) (hv : v ∉ discovered) (hloop : ¬ g.Edge v v) :
    g.Walking bound ((g.next v).map .enter ++ .leave v :: rest) (v :: discovered) finished := by
  have hunder : underWay ((g.next v).map .enter ++ .leave v :: rest) = v :: underWay rest :=
    underWay_append_enter _ _
  have hfresh : v ∉ underWay rest ++ finished := fun hmem => hv ((h.found v).mpr hmem)
  refine ⟨h.traced, ?_, fun w => ?_, ?_, ?_, ?_, ?_, fun w => ?_⟩
  · rw [hunder]
    exact List.nodup_cons.mpr ⟨hfresh, h.nodup⟩
  · rw [hunder, List.mem_cons, h.found w, List.cons_append, List.mem_cons]
    exact Iff.rfl
  · rw [hunder, List.length_cons, h.length, List.cons_append, List.length_cons]
    rfl
  · exact List.forall_mem_cons.mpr ⟨hloop, h.loopless⟩
  · have hbound := h.bound
    rw [List.length_cons]
    omega
  · rw [planned_append_enter, List.append_nil]
    have hplanned : g.Planned finished [v] rest := h.planned
    refine ⟨fun w hedge => Or.inr (Or.inl ?_), fun w hw => ?_, ?_⟩
    · exact List.mem_reverse.mpr (mem_next_iff.mpr hedge)
    · exact .single (mem_next_iff.mp (List.mem_reverse.mp hw))
    · refine hplanned.mono (fun _ => id) ?_ ?_
      · intro w hw
        rw [List.mem_singleton.mp hw]
        exact Or.inr (by simp)
      · intro w hw
        refine ⟨v, by simp, ?_⟩
        rcases List.mem_cons.mp hw with rfl | hw
        · exact .refl
        · exact .single (mem_next_iff.mp (List.mem_reverse.mp hw))
  · have hvertices := h.vertices w
    rw [subjects_append_enter, ← hvertices]
    constructor
    · intro hw
      rcases List.mem_append.mp hw with hw | hw
      · rcases List.mem_append.mp hw with hw | hw
        · exact hvertices.mpr (hclosed (mem_next_iff.mp hw)).2
        · exact List.mem_append_left _ hw
      · exact List.mem_append_right _ hw
    · intro hw
      rcases List.mem_append.mp hw with hw | hw
      · exact List.mem_append_left _ (List.mem_append_right _ hw)
      · exact List.mem_append_right _ hw

end Steps

/-- In the beginning all vertices are to be entered, and nothing is discovered or finished. -/
theorem walking_start (g : Digraph α) :
    g.Walking g.vertices.length (g.vertices.map .enter) [] [] := by
  refine ⟨trivial, ?_, fun v => ?_, ?_, by simp, Nat.le_refl _, ?_, fun v => ?_⟩
  · simp [underWay_map_enter]
  · simp [underWay_map_enter]
  · simp [underWay_map_enter]
  · have hplanned : g.Planned [] [] (g.vertices.map .enter ++ []) :=
      (planned_append_enter g.vertices [] []).mpr trivial
    rwa [List.append_nil] at hplanned
  · simp [subjects_map_enter]

variable [DecidableEq α]

/-- **A walk finishes every vertex**, or it stops at one that has an edge to itself. -/
theorem Walking.finishOrder {bound : Nat} {tasks : List (Task α)} {discovered finished : List α}
    (h : g.Walking bound tasks discovered finished) (hclosed : g.Closed) :
    (∃ order, g.finishOrder bound tasks discovered finished = .ok order ∧ g.Traced order ∧
      order.Nodup ∧ (∀ v, v ∈ order ↔ v ∈ g.vertices) ∧ ∀ v ∈ order, ¬ g.Edge v v) ∨
    ∃ v, g.finishOrder bound tasks discovered finished = .error v ∧ g.Edge v v := by
  -- By the recursion of the walk: at its end, leaving, skipping, at a loop, out of bound,
  -- entering.
  fun_induction Digraph.finishOrder g bound tasks discovered finished with
  | case1 bound discovered finished =>
    refine Or.inl ⟨finished, rfl, h.traced, h.nodup, h.vertices, fun v hv => ?_⟩
    exact h.loopless v ((h.found v).mpr hv)
  | case2 bound discovered finished v rest ih => exact ih h.leave
  | case3 bound discovered finished v rest hv ih => exact ih (h.skip hv)
  | case4 bound discovered finished v rest hv hloop => exact Or.inr ⟨v, rfl, mem_next_iff.mp hloop⟩
  | case5 discovered finished v rest hv hloop => exact absurd rfl (h.bound_pos hv)
  | case6 discovered finished v rest hv hloop bound ih =>
    exact ih (h.enter hclosed hv fun hedge => hloop (mem_next_iff.mpr hedge))

/-! ## 3. The order -/

/-- **What the search for an edge that points backward finds leads back to itself**, and if it
finds nothing every edge points forward. -/
theorem firstBackward_cases {placed order : List α} (htraced : g.Traced order)
    (hnodup : order.Nodup) (hloop : ∀ v ∈ order, ¬ g.Edge v v)
    (hplaced : ∀ {u v}, v ∈ placed → g.Edge u v → u ∈ placed)
    (hdistinct : ∀ v ∈ placed, v ∉ order)
    (hmem : ∀ {u v}, g.Edge u v → (u ∈ placed ∨ u ∈ order) ∧ (v ∈ placed ∨ v ∈ order)) :
    (g.firstBackward placed order = none ∧ g.Forward order) ∨
      ∃ v, g.firstBackward placed order = some v ∧ Relation.TransGen g.Edge v v := by
  induction order generalizing placed with
  | nil => exact Or.inl ⟨rfl, trivial⟩
  | cons first rest ih =>
    obtain ⟨hfresh, hnodup⟩ := List.nodup_cons.mp hnodup
    rw [firstBackward]
    cases hfind : (g.previous first).find? fun u => !decide (u ∈ first :: placed) with
    | some u =>
      have hedge : g.Edge u first := mem_previous_iff.mp (List.mem_of_find?_eq_some hfind)
      have hlate : u ∉ first :: placed := by simpa using List.find?_some hfind
      refine Or.inr ⟨u, rfl, ?_⟩
      -- The source stands further down, and the first vertex is not behind it, so it leads back to
      -- it.
      have hu : u ∈ rest := by
        rcases (hmem hedge).1 with hin | hin
        · exact absurd (List.mem_cons_of_mem first hin) hlate
        · exact (List.mem_cons.mp hin).resolve_left fun heq => hlate (heq ▸ List.mem_cons_self)
      have hback := htraced.2.leads_back hu hedge
      rcases hback with hin | hback
      · exact absurd hin hfresh
      · exact .head' hedge hback
    | none =>
      have hsources : ∀ {u}, g.Edge u first → u ∈ first :: placed := by
        intro u hedge
        simpa [or_iff_not_imp_left] using List.find?_eq_none.mp hfind u (mem_previous_iff.mpr hedge)
      have hrest : (g.firstBackward (first :: placed) rest = none ∧ g.Forward rest) ∨
          ∃ v, g.firstBackward (first :: placed) rest = some v ∧ Relation.TransGen g.Edge v v := by
        -- All that leads to the first vertex is placed, so the rest is searched with it placed.
        refine ih htraced.2 hnodup (fun v hv => hloop v (List.mem_cons_of_mem first hv)) ?_ ?_ ?_
        · intro u v hv hedge
          rcases List.mem_cons.mp hv with rfl | hv
          · exact hsources hedge
          · exact List.mem_cons_of_mem first (hplaced hv hedge)
        · intro v hv hin
          rcases List.mem_cons.mp hv with rfl | hv
          · exact hfresh hin
          · exact hdistinct v hv (List.mem_cons_of_mem first hin)
        · intro u v hedge
          have hmove : ∀ w, w ∈ placed ∨ w ∈ first :: rest → w ∈ first :: placed ∨ w ∈ rest := by
            intro w hw
            simp only [List.mem_cons] at hw ⊢
            tauto
          exact ⟨hmove u (hmem hedge).1, hmove v (hmem hedge).2⟩
      rcases hrest with ⟨hnone, hforward⟩ | hcycle
      · refine Or.inl ⟨hnone, fun w hedge => ?_, hforward⟩
        rcases (hmem hedge).2 with hin | hin
        · exact absurd List.mem_cons_self (hdistinct first (hplaced hin hedge))
        · rcases List.mem_cons.mp hin with rfl | hin
          · exact absurd hedge (hloop w List.mem_cons_self)
          · exact hin
      · exact Or.inr hcycle

/-- **Either every edge points forward in the order that is found, or the vertex that is named
leads back to itself.** -/
theorem order?_cases (hclosed : g.Closed) :
    (∃ order, g.order? = .ok order ∧ g.Forward order ∧ order.Nodup ∧
      ∀ v, v ∈ order ↔ v ∈ g.vertices) ∨
    ∃ v, g.order? = .error v ∧ Relation.TransGen g.Edge v v := by
  rcases (walking_start g).finishOrder hclosed with
    ⟨order, hfinish, htraced, hnodup, hmem, hloop⟩ | ⟨v, hfinish, hedge⟩
  · have hin : ∀ {u v}, g.Edge u v → (u ∈ [] ∨ u ∈ order) ∧ (v ∈ [] ∨ v ∈ order) := fun hedge =>
      ⟨Or.inr ((hmem _).mpr (hclosed hedge).1), Or.inr ((hmem _).mpr (hclosed hedge).2)⟩
    rcases firstBackward_cases htraced hnodup hloop (by simp) (by simp) hin with
      ⟨hnone, hforward⟩ | ⟨v, hsome, hcycle⟩
    · refine Or.inl ⟨order, ?_, hforward, hnodup, hmem⟩
      simp only [order?, hfinish, bind, Except.bind, hnone]
    · refine Or.inr ⟨v, ?_, hcycle⟩
      simp only [order?, hfinish, bind, Except.bind, hsome]
  · refine Or.inr ⟨v, ?_, .single hedge⟩
    rw [order?, hfinish]
    rfl

/-- **A graph without cycles can be ordered.**  The order has every vertex once, in front of what
it leads to. -/
theorem order?_eq_ok (hacyclic : g.Acyclic) (hclosed : g.Closed) :
    ∃ order, g.order? = .ok order ∧ g.Forward order ∧ order.Nodup ∧
      ∀ v, v ∈ order ↔ v ∈ g.vertices :=
  (order?_cases hclosed).resolve_right fun ⟨v, _, hcycle⟩ => hacyclic v hcycle

end Digraph

/-! ## 4. Dataflow -/

namespace Graph

variable {g : Graph} {id target : NodeId} {payload : Payload} {rank : NodeId → Nat}

/-- Each reading of a member, from what is read to who reads it. -/
def readings (g : Graph) : List (NodeId × NodeId) :=
  g.members.flatMap fun id => (g.inputs id).filterMap fun input =>
    input.map fun source => (source, id)

/-- The pairs of the readings are the edges of reading. -/
theorem mem_readings_iff : (target, id) ∈ g.readings ↔ g.ReadsFrom id target := by
  simp only [readings, List.mem_flatMap, List.mem_filterMap, Option.map_eq_some_iff, Prod.mk.injEq]
  constructor
  · rintro ⟨user, huser, _, hinput, source, rfl, rfl, rfl⟩
    obtain ⟨payload, hmember⟩ := mem_members_iff.mp huser
    rw [inputs, payload?_of_member? hmember] at hinput
    exact ⟨payload, hmember, Payload.mem_inputs_iff.mp hinput⟩
  · rintro ⟨payload, hmember, htarget⟩
    refine ⟨id, mem_members_iff.mpr ⟨payload, hmember⟩, some target, ?_, target, rfl, rfl, rfl⟩
    rw [inputs, payload?_of_member? hmember]
    exact Payload.mem_inputs_iff.mpr htarget

/-- Checks that all pass leave a plain fold. -/
theorem foldlM_eq_ok {ε α β : Type} {step : β → α → Except ε β} {plain : β → α → β} {items : List α}
    (h : ∀ b, ∀ a ∈ items, step b a = .ok (plain b a)) (start : β) :
    items.foldlM step start = .ok (items.foldl plain start) := by
  induction items generalizing start with
  | nil => rfl
  | cons a items ih =>
    rw [List.foldlM_cons, h start a (by simp), List.foldl_cons]
    exact ih (fun b a ha => h b a (List.mem_cons_of_mem _ ha)) _

/-- The members and their readings. -/
def flow (g : Graph) : Digraph NodeId :=
  ({ vertices := g.members } : Digraph NodeId).addEdges g.readings

/-- And so are the edges of the digraph the order is computed on. -/
theorem edge_flow_iff : g.flow.Edge target id ↔ g.ReadsFrom id target := by
  rw [flow, Digraph.edge_addEdges, mem_readings_iff]
  simp [Digraph.Edge]

/-- It is closed, having been built from its edges. -/
theorem closed_flow (g : Graph) : g.flow.Closed :=
  Digraph.Closed.addEdges (fun hnone => absurd hnone (by simp [Digraph.Edge])) _

/-- Its vertices are the members, since members read members. -/
theorem mem_vertices_flow_iff (h : g.Kept) : id ∈ g.flow.vertices ↔ id ∈ g.members := by
  rw [flow, Digraph.mem_vertices_addEdges]
  constructor
  · rintro (hmem | ⟨⟨source, user⟩, hreading, hend⟩)
    · exact hmem
    · obtain ⟨payload, hmember, hsource⟩ := mem_readings_iff.mp hreading
      rcases hend with rfl | rfl
      · exact mem_members_iff.mpr (h.member?_of_mem_inputEdges hmember hsource)
      · exact mem_members_iff.mpr ⟨payload, hmember⟩
  · exact Or.inl

/-- **The dataflow of a graph whose records agree has the readings of its members as edges.** -/
theorem dataflow_eq_ok (h : g.Kept) : g.dataflow = .ok g.flow := by
  unfold dataflow flow Digraph.addEdges readings
  rw [List.foldl_flatMap]
  refine foldlM_eq_ok (fun flow id hid => ?_) _
  rw [List.foldl_filterMap]
  refine foldlM_eq_ok (fun flow input hinput => ?_) _
  cases input with
  | none => rfl
  | some source =>
    obtain ⟨payload, hmember⟩ := mem_members_iff.mp hid
    rw [inputs, payload?_of_member? hmember] at hinput
    obtain ⟨found, hfound⟩ :=
      h.member?_of_mem_inputEdges hmember (Payload.mem_inputs_iff.mp hinput)
    simp only [isActive_iff.mpr ⟨found, hfound⟩, if_true]
    rfl

/-- **Where reading has no cycles there is a dataflow order.**  It has every member once, behind
what it reads. -/
theorem dataflowOrder_eq_ok (h : g.Kept) (hacyclic : g.Acyclic) :
    ∃ order, g.dataflowOrder = .ok order ∧ g.flow.Forward order ∧ order.Nodup ∧
      ∀ id, id ∈ order ↔ id ∈ g.members := by
  have hback : ∀ {u v}, Relation.TransGen g.flow.Edge u v → Relation.TransGen g.ReadsFrom v u := by
    intro u v hpath
    induction hpath with
    | single hedge => exact .single (edge_flow_iff.mp hedge)
    | tail _ hedge ih => exact .head (edge_flow_iff.mp hedge) ih
  have hflow : g.flow.Acyclic := fun id hcycle => hacyclic id (hback hcycle)
  obtain ⟨order, horder, hforward, hnodup, hmem⟩ := Digraph.order?_eq_ok hflow g.closed_flow
  refine ⟨order, ?_, hforward, hnodup, fun id => (hmem id).trans (mem_vertices_flow_iff h)⟩
  rw [dataflowOrder, dataflow_eq_ok h]
  simp only [bind, Except.bind, horder]

end Graph

/-! ## 5. Calls -/

/-- **Some definition called `caller` has a call of `callee`.** -/
def Context.Calls (context : Context) (caller callee : String) : Prop :=
  ∃ d ∈ context.definitions, d.name = caller ∧ callee ∈ d.calls

/-- No name calls itself, at whatever distance. -/
def Context.NonRecursive (context : Context) : Prop :=
  ∀ name, ¬ Relation.TransGen context.Calls name name

/-- Ranks of names that fall along calls rule recursion out. -/
theorem Context.nonRecursive_of_rank {context : Context} (rank : String → Nat)
    (h : ∀ d ∈ context.definitions, ∀ callee ∈ d.calls, rank callee < rank d.name) :
    context.NonRecursive := by
  have hfalls : ∀ {caller callee}, Relation.TransGen context.Calls caller callee →
      rank callee < rank caller := by
    intro caller callee hpath
    induction hpath with
    | single hcalls =>
      obtain ⟨d, hd, rfl, hin⟩ := hcalls
      exact h d hd _ hin
    | tail _ hcalls ih =>
      obtain ⟨d, hd, rfl, hin⟩ := hcalls
      exact Nat.lt_trans (h d hd _ hin) ih
  exact fun name hpath => Nat.lt_irrefl _ (hfalls hpath)

/-- The place found for a name has a definition of that name. -/
theorem name_of_lastPlace? {definitions : List Definition} {name : String} {place : Nat}
    (h : lastPlace? definitions name = some place) :
    ∃ d, definitions[place]? = some d ∧ d.name = name := by
  obtain ⟨⟨d, index⟩, hfind, rfl⟩ := Option.map_eq_some_iff.mp h
  have hmem := List.mem_reverse.mp (List.mem_of_find?_eq_some hfind)
  have hname := List.find?_some hfind
  exact ⟨d, List.mem_zipIdx_iff_getElem?.mp hmem, of_decide_eq_true hname⟩

/-- The calls of definitions by their places, from the callee to the caller. -/
def callings (definitions : List Definition) : List (Nat × Nat) :=
  definitions.zipIdx.flatMap fun entry =>
    (entry.1.calls.filterMap (lastPlace? definitions)).map fun callee => (callee, entry.2)

/-- The digraph of calls, on the places of the definitions. -/
theorem callGraph_eq (definitions : List Definition) :
    callGraph definitions = ({ vertices := List.range definitions.length } : Digraph Nat).addEdges
      (callings definitions) := by
  simp only [callGraph, Digraph.addEdges, callings, List.foldl_flatMap, List.foldl_map]

/-- An edge between places is a call between names. -/
theorem calls_of_edge {context : Context} {callee caller : Nat}
    (h : (callGraph context.definitions).Edge callee caller) :
    ∃ d d', context.definitions[callee]? = some d ∧ context.definitions[caller]? = some d' ∧
      context.Calls d'.name d.name := by
  rw [callGraph_eq, Digraph.edge_addEdges] at h
  rcases h with hnone | hcalling
  · exact absurd hnone (by simp [Digraph.Edge])
  · simp only [callings, List.mem_flatMap, List.mem_map, List.mem_filterMap, Prod.mk.injEq]
      at hcalling
    obtain ⟨⟨d', index⟩, hentry, place, ⟨name, hname, hplace⟩, rfl, rfl⟩ := hcalling
    obtain ⟨d, hd, rfl⟩ := name_of_lastPlace? hplace
    have hd' : context.definitions[index]? = some d' := List.mem_zipIdx_iff_getElem?.mp hentry
    exact ⟨d, d', hd, hd', d', List.mem_of_getElem? hd', rfl, hname⟩

/-- A path between places is a path of calls between names, the other way round. -/
theorem calls_of_path {context : Context} {callee caller : Nat}
    (h : Relation.TransGen (callGraph context.definitions).Edge callee caller) :
    ∃ d d', context.definitions[callee]? = some d ∧ context.definitions[caller]? = some d' ∧
      Relation.TransGen context.Calls d'.name d.name := by
  induction h with
  | single hedge =>
    obtain ⟨d, d', hd, hd', hcalls⟩ := calls_of_edge hedge
    exact ⟨d, d', hd, hd', .single hcalls⟩
  | tail _ hedge ih =>
    obtain ⟨d, d', hd, hd', hpath⟩ := ih
    obtain ⟨e, e', he, he', hcalls⟩ := calls_of_edge hedge
    obtain rfl := Option.some.inj (hd'.symm.trans he)
    exact ⟨d, e', hd, he', .head hcalls hpath⟩

/-- If no name calls itself, neither does a place, as a place stands for a name. -/
theorem callGraph_acyclic {context : Context} (h : context.NonRecursive) :
    (callGraph context.definitions).Acyclic := by
  intro place hcycle
  obtain ⟨d, d', hd, hd', hcalls⟩ := calls_of_path hcycle
  obtain rfl := Option.some.inj (hd.symm.trans hd')
  exact h d.name hcalls

/-- Calls lead from places to places. -/
theorem callGraph_closed (definitions : List Definition) : (callGraph definitions).Closed := by
  rw [callGraph_eq]
  exact Digraph.Closed.addEdges (fun hnone => absurd hnone (by simp [Digraph.Edge])) _

/-- The vertices of the call graph are the places of the definitions. -/
theorem mem_vertices_callGraph {context : Context} {place : Nat} :
    place ∈ (callGraph context.definitions).vertices ↔ place < context.definitions.length := by
  rw [callGraph_eq, Digraph.mem_vertices_addEdges]
  constructor
  · rintro (hrange | ⟨⟨callee, caller⟩, hcalling, hend⟩)
    · exact List.mem_range.mp hrange
    · have hedge : (callGraph context.definitions).Edge callee caller := by
        rw [callGraph_eq, Digraph.edge_addEdges]
        exact Or.inr hcalling
      obtain ⟨d, d', hd, hd', -⟩ := calls_of_edge hedge
      rcases hend with rfl | rfl
      · exact (List.getElem?_eq_some_iff.mp hd).1
      · exact (List.getElem?_eq_some_iff.mp hd').1
  · exact fun hlt => Or.inl (List.mem_range.mpr hlt)

/-- **Where no name calls itself the definitions can be scheduled**, each of them once. -/
theorem schedule_eq_ok {context : Context} (h : context.NonRecursive) (order : CallOrder) :
    ∃ places, schedule context.definitions order = .ok places ∧ places.Nodup ∧
      ∀ place, place ∈ places ↔ place < context.definitions.length := by
  obtain ⟨places, hplaces, -, hnodup, hmem⟩ :=
    Digraph.order?_eq_ok (callGraph_acyclic h) (callGraph_closed context.definitions)
  have hall : ∀ place, place ∈ places ↔ place < context.definitions.length :=
    fun place => (hmem place).trans mem_vertices_callGraph
  cases order with
  | listed => exact ⟨_, rfl, List.nodup_range, fun place => List.mem_range⟩
  | callersFirst =>
    refine ⟨places.reverse, by simp only [schedule, hplaces, if_true], ?_, fun place => ?_⟩
    · exact List.nodup_reverse.mpr hnodup
    · rw [List.mem_reverse, hall]
  | calleesFirst => exact ⟨places, by simp [schedule, hplaces], hnodup, hall⟩

end BehaviorGraph
