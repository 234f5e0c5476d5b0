/-
# Members at other places

Two graphs may have the same members at different places.  `Graph.Carries` says so: a function
takes the members of the one to those of the other, in the order of creation, and each keeps what
it is, with edges to where the targets went.  All that is read off a graph by way of its members is
then carried along: **kinds, users and, as far as order does not count, usages**
(`Carries.perm_usages`), **and the types of values** (`Carries.typeOf`), although the arenas are of
different sizes and a chain of bindings may lead round in a circle.

The type of a value is looked for along the bindings, and the search is given as many steps as the
arena has places.  A graph with gaps has more places than one without, so it has to be shown that
the surplus finds nothing: a search that has taken as many steps as there are members has come to a
node twice, and then goes round for ever (`Kept.isBinding_iterate`).

The control flow may be listed in another order, because the ends of branches list those who use
them in the order of their records (`Carries.controlFlow`).  What is found on the way through it is
the same: a directed graph that is carried to another (`Digraph.Carries`) has as many ways into and
out of each vertex, cycles if the other has, and the same in reach.  The function is injective on
the vertices, so paths can be followed in either direction.

Closing up the gaps between the members of a graph carries it to the graph that has nothing but
them (`Kept.carries_compact`).
-/
import BehaviorGraph.Check
import BehaviorGraph.Proofs.ControlFlow
import BehaviorGraph.Proofs.Exchanging

namespace BehaviorGraph

/-! ## 1. Directed graphs under other names -/

/-- A search finds nothing twice: a node is added only if it was not seen. -/
theorem nodup_search {α : Type} [DecidableEq α] {next : α → List α} {bound : Nat}
    {stack seen : List α} (h : seen.Nodup) : (search next bound stack seen).Nodup := by
  fun_induction search next bound stack seen with
  | case1 bound seen => exact h
  | case2 bound seen first rest hseen ih => exact ih h
  | case3 seen first rest hseen => exact h
  | case4 seen first rest hseen bound ih => exact ih (List.nodup_cons.mpr ⟨hseen, h⟩)

namespace Digraph

variable {α : Type} {flow flow' : Digraph α} {f : α → α} {u v start : α}

/-- From a vertex one gets to vertices only. -/
theorem Closed.mem_of_path (h : flow.Closed) (hstart : start ∈ flow.vertices)
    (hpath : Relation.ReflTransGen flow.Edge start v) : v ∈ flow.vertices := by
  rcases Relation.ReflTransGen.cases_tail hpath with rfl | ⟨last, -, hlast⟩
  · exact hstart
  · exact (h hlast).2

/-- **A function carries one directed graph to another.** -/
structure Carries (f : α → α) (flow flow' : Digraph α) : Prop where
  closed : flow.Closed
  carried : flow'.Closed
  vertices : flow'.vertices.Perm (flow.vertices.map f)
  edges : flow'.edges.Perm (flow.edges.map (Prod.map f f))
  injective : ∀ {u v}, u ∈ flow.vertices → v ∈ flow.vertices → f u = f v → u = v

namespace Carries

/-- Edges go along. -/
theorem edge (h : Carries f flow flow') (hedge : flow.Edge u v) : flow'.Edge (f u) (f v) :=
  h.edges.mem_iff.mpr (List.mem_map.mpr ⟨(u, v), hedge, rfl⟩)

/-- An edge in the other graph comes from one. -/
theorem exists_edge (h : Carries f flow flow') {w : α} (hu : u ∈ flow.vertices)
    (hedge : flow'.Edge (f u) w) :
    ∃ v, flow.Edge u v ∧ f v = w := by
  obtain ⟨⟨u', v⟩, hfrom, hsame⟩ := List.mem_map.mp (h.edges.mem_iff.mp hedge)
  obtain ⟨hu', rfl⟩ := Prod.mk.inj hsame
  -- The edge that it comes from starts at a vertex that goes to the same place as `u`, so it
  -- starts at `u`.
  obtain rfl := h.injective (h.closed hfrom).1 hu hu'
  exact ⟨v, hfrom, rfl⟩

/-- **Paths from a vertex go along**, and all paths from where it went are such. -/
theorem reflTransGen_iff (h : Carries f flow flow') (hstart : start ∈ flow.vertices) {w : α} :
    Relation.ReflTransGen flow'.Edge (f start) w ↔
      ∃ v, Relation.ReflTransGen flow.Edge start v ∧ f v = w := by
  constructor
  · intro hpath
    induction hpath with
    | refl => exact ⟨start, .refl, rfl⟩
    | tail _ hedge ih =>
      obtain ⟨u, hpath, rfl⟩ := ih
      -- The path comes to a vertex, and its last edge from there.
      obtain ⟨v, hfrom, rfl⟩ := h.exists_edge (Closed.mem_of_path h.closed hstart hpath) hedge
      exact ⟨v, hpath.tail hfrom, rfl⟩
  · rintro ⟨v, hpath, rfl⟩
    exact Relation.ReflTransGen.lift f (fun _ _ hedge => h.edge hedge) _ _ hpath

/-- The one has a cycle if the other has. -/
theorem acyclic_iff (h : Carries f flow flow') : flow'.Acyclic ↔ flow.Acyclic := by
  constructor
  · exact fun hacyclic v hcycle => hacyclic (f v)
      (Relation.TransGen.lift f (fun _ _ hedge => h.edge hedge) _ _ hcycle)
  · intro hacyclic w hcycle
    -- A cycle is an edge and a path that leads back from its end; both come from the first graph.
    obtain ⟨next, hedge, hback⟩ := Relation.TransGen.head'_iff.mp hcycle
    obtain ⟨⟨u, v⟩, hfrom, hsame⟩ := List.mem_map.mp (h.edges.mem_iff.mp hedge)
    obtain ⟨rfl, rfl⟩ := Prod.mk.inj hsame
    obtain ⟨v', hpath, hsame⟩ := (h.reflTransGen_iff (h.closed hfrom).2).mp hback
    obtain rfl := h.injective (Closed.mem_of_path h.closed (h.closed hfrom).2 hpath)
      (h.closed hfrom).1 hsame
    exact hacyclic v' (Relation.TransGen.head' hfrom hpath)

end Carries

variable [DecidableEq α]

/-- Depth-first search finds what is in reach, each vertex once. -/
theorem mem_depthFirst_iff :
    v ∈ flow.depthFirst start ↔ Relation.ReflTransGen flow.Edge start v := by
  refine ⟨fun hin => ?_, mem_depthFirst_of_path⟩
  exact Relation.ReflTransGen.mono (fun u w hw => mem_next_iff.mp (List.mem_reverse.mp hw)) _ _
    (path_of_mem_search (List.mem_reverse.mp hin))

theorem nodup_depthFirst (flow : Digraph α) (start : α) : (flow.depthFirst start).Nodup :=
  List.nodup_reverse.mpr (nodup_search List.nodup_nil)

/-- The test finds a cycle if there is one. -/
theorem isCyclic_eq_false_iff (hclosed : flow.Closed) : flow.isCyclic = false ↔ flow.Acyclic := by
  constructor
  · intro h
    obtain ⟨order, hforward, hnodup, hmem⟩ := exists_forward hclosed h
    exact hforward.acyclic hnodup fun hedge => (hmem _).mpr (hclosed hedge).1
  · intro hacyclic
    obtain ⟨order, horder, -⟩ := order?_eq_ok hacyclic hclosed
    rw [isCyclic, horder]

/-- Vertices and edges are listed once each. -/
structure Simple (flow : Digraph α) : Prop where
  vertices : flow.vertices.Nodup
  edges : flow.edges.Nodup

/-- Adding a vertex or an edge that is there already changes nothing, so nothing comes to be listed
twice. -/
theorem Simple.addVertex (h : flow.Simple) (v : α) : (flow.addVertex v).Simple := by
  unfold Digraph.addVertex
  split
  · exact h
  · rename_i hnot
    refine ⟨List.nodup_append.mpr ⟨h.vertices, List.nodup_singleton v, ?_⟩, h.edges⟩
    rintro u hu _ hv rfl
    exact hnot (List.mem_singleton.mp hv ▸ hu)

theorem Simple.addEdge (h : flow.Simple) (u v : α) : (flow.addEdge u v).Simple := by
  have hends : ((flow.addVertex u).addVertex v).Simple := (h.addVertex u).addVertex v
  simp only [Digraph.addEdge]
  split
  · exact hends
  · rename_i hnot
    refine ⟨hends.vertices, List.nodup_append.mpr ⟨hends.edges, List.nodup_singleton _, ?_⟩⟩
    rintro edge hedge _ hnew rfl
    exact hnot (List.mem_singleton.mp hnew ▸ hedge)

namespace Carries

/-- As many edges lead into a vertex as into where it went. -/
theorem length_previous (h : Carries f flow flow') (hv : v ∈ flow.vertices) :
    (flow'.previous (f v)).length = (flow.previous v).length := by
  rw [previous, previous, List.length_map, List.length_map, (h.edges.filter _).length_eq,
    List.filter_map, List.length_map]
  refine congrArg List.length (List.filter_congr fun edge hedge => ?_)
  have hend : edge.2 ∈ flow.vertices := (h.closed (u := edge.1) (v := edge.2) hedge).2
  exact decide_eq_decide.mpr ⟨fun hsame => h.injective hend hv hsame, fun hsame => congrArg f hsame⟩

/-- As many edges lead out of a vertex as out of where it went. -/
theorem length_next (h : Carries f flow flow') (hv : v ∈ flow.vertices) :
    (flow'.next (f v)).length = (flow.next v).length := by
  rw [next, next, List.length_map, List.length_map, (h.edges.filter _).length_eq, List.filter_map,
    List.length_map]
  refine congrArg List.length (List.filter_congr fun edge hedge => ?_)
  have hend : edge.1 ∈ flow.vertices := (h.closed (u := edge.1) (v := edge.2) hedge).1
  exact decide_eq_decide.mpr ⟨fun hsame => h.injective hend hv hsame, fun hsame => congrArg f hsame⟩

/-- The test for cycles has the same answer. -/
theorem isCyclic (h : Carries f flow flow') : flow'.isCyclic = flow.isCyclic := by
  have hiff : flow'.isCyclic = false ↔ flow.isCyclic = false := by
    rw [isCyclic_eq_false_iff h.closed, isCyclic_eq_false_iff h.carried, h.acyclic_iff]
  cases hcyclic : flow.isCyclic with
  | false => exact hiff.mpr hcyclic
  | true =>
    rw [hcyclic] at hiff
    simpa using hiff

/-- **What is in reach is carried along**, in some order. -/
theorem perm_depthFirst (h : Carries f flow flow') (hstart : start ∈ flow.vertices) :
    (flow'.depthFirst (f start)).Perm ((flow.depthFirst start).map f) := by
  have hreached : ∀ {v}, v ∈ flow.depthFirst start → v ∈ flow.vertices :=
    fun hv => Closed.mem_of_path h.closed hstart (mem_depthFirst_iff.mp hv)
  have hnodup : ((flow.depthFirst start).map f).Nodup :=
    (nodup_depthFirst flow start).map_on fun u hu v hv hsame => h.injective (hreached hu)
    (hreached hv) hsame
  refine (List.perm_ext_iff_of_nodup (nodup_depthFirst flow' (f start)) hnodup).mpr fun w => ?_
  rw [mem_depthFirst_iff, h.reflTransGen_iff hstart, List.mem_map]
  simp only [mem_depthFirst_iff]

/-- A vertex is in reach of another exactly if this holds where they went. -/
theorem contains_depthFirst (h : Carries f flow flow') (hstart : start ∈ flow.vertices)
    (hv : v ∈ flow.vertices) :
    (flow'.depthFirst (f start)).contains (f v) = (flow.depthFirst start).contains v := by
  rw [Bool.eq_iff_iff, List.contains_iff_mem, List.contains_iff_mem,
    (h.perm_depthFirst hstart).mem_iff, List.mem_map]
  constructor
  · rintro ⟨u, hu, hsame⟩
    have hvertex : u ∈ flow.vertices :=
      Closed.mem_of_path h.closed hstart (mem_depthFirst_iff.mp hu)
    exact h.injective hvertex hv hsame ▸ hu
  · exact fun hin => ⟨v, hin, rfl⟩

end Carries

end Digraph

namespace Graph

variable {g g' : Graph} {f : NodeId → NodeId} {id target user : NodeId}
  {payload : Payload} {node : Node}

/-! ## 2. Carrying members along -/

/-- **A function carries one graph to another**: members to members, in order, with what they are
and with their edges. -/
structure Carries (f : NodeId → NodeId) (g g' : Graph) : Prop where
  kept : g.Kept
  carried : g'.Kept
  members : g'.members = g.members.map f
  member? : ∀ {id payload}, g.member? id = some payload →
    g'.member? (f id) = some (payload.mapEdges f)
  name : g'.name = g.name
  owner : g'.owner = g.owner

namespace Carries

/-- Members of the other graph are where members went. -/
theorem exists_member? (h : Carries f g g') {place : NodeId}
    (hmember : g'.member? place = some payload) :
    ∃ id before, g.member? id = some before ∧ f id = place ∧ payload = before.mapEdges f := by
  have hplace := mem_members_iff.mpr ⟨payload, hmember⟩
  rw [h.members] at hplace
  obtain ⟨id, hid, rfl⟩ := List.mem_map.mp hplace
  obtain ⟨before, hbefore⟩ := mem_members_iff.mp hid
  exact ⟨id, before, hbefore, rfl, Option.some.inj (hmember.symm.trans (h.member? hbefore))⟩

/-- No two members went to the same place. -/
theorem injective (h : Carries f g g') {found : Payload} (hid : g.member? id = some payload)
    (htarget : g.member? target = some found) (hsame : f id = f target) : id = target := by
  have hnodup : (g.members.map f).Nodup := h.members ▸ nodup_members g'
  exact List.inj_on_of_nodup_map hnodup (mem_members_iff.mpr ⟨_, hid⟩)
    (mem_members_iff.mpr ⟨_, htarget⟩) hsame

/-- A member keeps its kind. -/
theorem kind? (h : Carries f g g') (hmember : g.member? id = some payload) :
    g'.kind? (f id) = g.kind? id := by
  rw [kind?_of_member? hmember, kind?_of_member? (h.member? hmember), Payload.kind_mapEdges]

/-- The members that a filter picks are carried along, in order. -/
theorem membersOf (h : Carries f g g') (filter : Filter) :
    g'.membersOf filter = (g.membersOf filter).map f := by
  rw [Graph.membersOf, Graph.membersOf, h.members, List.filter_map]
  refine congrArg (List.map f) (List.filter_congr fun id hid => ?_)
  obtain ⟨payload, hmember⟩ := mem_members_iff.mp hid
  simp only [Function.comp_apply, h.kind? hmember]

/-- A member has as many edges to where another went as it had to the other. -/
theorem weight (h : Carries f g g') {found : Payload} (huser : g.member? user = some payload)
    (hid : g.member? id = some found) : g'.weight (f user) (f id) = g.weight user id := by
  rw [weight_of_member? huser, weight_of_member? (h.member? huser), Payload.edges_mapEdges,
    List.count, List.count, List.countP_map]
  refine List.countP_congr fun target htarget => ?_
  obtain ⟨offered, hoffered⟩ := h.kept.member?_of_mem_edges huser htarget
  simp only [Function.comp_apply, beq_iff_eq]
  exact ⟨fun hsame => h.injective hoffered hid hsame, fun hsame => by rw [hsame]⟩

/-- Users are carried along. -/
theorem mem_users_iff (h : Carries f g g') {found : Payload} (hmember : g.member? id = some payload)
    (huser : g.member? user = some found) : f user ∈ g'.users (f id) ↔ user ∈ g.users id := by
  obtain ⟨node, hnode, -, -⟩ := member?_eq_some_iff.mp hmember
  obtain ⟨node', hnode', -, -⟩ := member?_eq_some_iff.mp (h.member? hmember)
  rw [Graph.mem_users_iff h.kept hnode huser,
    Graph.mem_users_iff h.carried hnode' (h.member? huser), Payload.edges_mapEdges, List.mem_map]
  constructor
  · rintro ⟨target, htarget, hsame⟩
    obtain ⟨offered, hoffered⟩ := h.kept.member?_of_mem_edges huser htarget
    exact h.injective hoffered hmember hsame ▸ htarget
  · exact fun hin => ⟨id, hin, rfl⟩

end Carries

/-! ## 3. The types of values -/

/-- What a binding names; any other node is its own origin. -/
def named (g : Graph) (id : NodeId) : NodeId :=
  match g.payload? id with
  | some (.binding value _) => value
  | _ => id

/-- A node is a binding. -/
def IsBinding (g : Graph) (id : NodeId) : Prop :=
  ∃ value name, g.payload? id = some (.binding value name)

/-- A node that is no binding is where a chain of bindings ends. -/
theorem named_of_not_isBinding (h : ¬ g.IsBinding id) : g.named id = id := by
  unfold named
  split
  · exact absurd ⟨_, _, ‹_›⟩ h
  · rfl

/-- Following bindings is to ask for the node named again and again; at the end of a chain asking
changes nothing. -/
theorem unbind_eq_iterate (g : Graph) (limit : Nat) (id : NodeId) :
    g.unbind limit id = g.named^[limit] id := by
  induction limit generalizing id with
  | zero => rfl
  | succ limit ih =>
    rw [unbind, Function.iterate_succ_apply]
    split
    · rename_i value name hpayload
      rw [ih, named, hpayload]
    · rename_i hnot
      have hfixed : g.named id = id := by
        refine named_of_not_isBinding ?_
        rintro ⟨value, name, hpayload⟩
        exact hnot value name hpayload
      rw [hfixed]
      exact (Function.iterate_fixed hfixed limit).symm

/-- Where there is no binding one stays. -/
theorem iterate_named_of_le {steps limit : Nat} (h : ¬ g.IsBinding (g.named^[steps] id))
    (hle : steps ≤ limit) :
    g.named^[limit] id = g.named^[steps] id := by
  obtain ⟨more, rfl⟩ := Nat.exists_eq_add_of_le' hle
  rw [Function.iterate_add_apply]
  exact Function.iterate_fixed (named_of_not_isBinding h) more

theorem Kept.member?_named (h : g.Kept) (hmember : g.member? id = some payload) :
    ∃ found, g.member? (g.named id) = some found := by
  unfold named
  rw [payload?_of_member? hmember]
  split
  · rename_i value name hbinding
    obtain rfl := Option.some.inj hbinding
    exact h.member?_of_mem_inputEdges hmember (Payload.value_mem_inputEdges rfl)
  · exact ⟨payload, hmember⟩

theorem Kept.member?_iterate_named (h : g.Kept) (hmember : g.member? id = some payload)
    (steps : Nat) :
    ∃ found, g.member? (g.named^[steps] id) = some found := by
  induction steps with
  | zero => exact ⟨payload, hmember⟩
  | succ steps ih =>
    obtain ⟨found, hfound⟩ := ih
    rw [Function.iterate_succ_apply']
    exact h.member?_named hfound

/-- **A chain of bindings that is as long as there are members leads round in a circle**, and has
no end. -/
theorem Kept.isBinding_iterate (h : g.Kept) (hmember : g.member? id = some payload)
    (hlong : g.IsBinding (g.named^[g.members.length] id)) (steps : Nat) :
      g.IsBinding (g.named^[steps] id) := by
  have hearly : ∀ {steps}, steps ≤ g.members.length → g.IsBinding (g.named^[steps] id) := by
    intro steps hle
    by_contra hnot
    rw [iterate_named_of_le hnot hle] at hlong
    exact hnot hlong
  -- Two of the places it goes through at first are the same.
  obtain ⟨early, hlow, late, hlate, hne, hsame⟩ := Finset.exists_ne_map_eq_of_card_lt_of_maps_to
    (s := Finset.range (g.members.length + 1)) (t := g.members.toFinset)
    (f := fun steps => g.named^[steps] id) (by
      rw [Finset.card_range, List.toFinset_card_of_nodup (nodup_members g)]
      exact Nat.lt_succ_self _)
    (fun steps _ => by
      obtain ⟨found, hfound⟩ := h.member?_iterate_named hmember steps
      exact List.mem_toFinset.mpr (mem_members_iff.mpr ⟨found, hfound⟩))
  rw [Finset.mem_range] at hlow hlate
  obtain ⟨early, late, hlt, hlate, hsame⟩ : ∃ early late, early < late ∧ late ≤ g.members.length ∧
      g.named^[early] id = g.named^[late] id := by
    rcases Nat.lt_or_gt_of_ne hne with hlt | hlt
    · exact ⟨early, late, hlt, by omega, hsame⟩
    · exact ⟨late, early, hlt, by omega, hsame.symm⟩
  induction steps using Nat.strong_induction_on with
  | h steps ih =>
    by_cases hle : steps ≤ late
    · exact hearly (hle.trans hlate)
    · have hback : g.named^[steps] id = g.named^[steps - late + early] id := by
        rw [Function.iterate_add_apply, hsame, ← Function.iterate_add_apply]
        congr 1
        omega
      rw [hback]
      exact ih _ (by omega)

/-- **The type of a value is found within as many steps as there are members**, or not at all. -/
theorem Kept.typeOf_eq_iterate (h : g.Kept) (hmember : g.member? id = some payload) :
    g.typeOf id = (g.payload? (g.named^[g.members.length] id)).bind Payload.declaredType := by
  have hle : g.members.length ≤ g.nodes.size := by
    have hlength : g.members.length ≤ g.ids.length := List.length_filter_le _ _
    simpa [ids] using hlength
  rw [typeOf, origin, unbind_eq_iterate]
  by_cases hlong : g.IsBinding (g.named^[g.members.length] id)
  · obtain ⟨value, name, hpayload⟩ := h.isBinding_iterate hmember hlong g.nodes.size
    obtain ⟨value', name', hpayload'⟩ := hlong
    rw [hpayload, hpayload']
    rfl
  · rw [iterate_named_of_le hlong hle]

namespace Carries

theorem named (h : Carries f g g') (hmember : g.member? id = some payload) :
    g'.named (f id) = f (g.named id) := by
  unfold Graph.named
  rw [payload?_of_member? hmember, payload?_of_member? (h.member? hmember)]
  cases payload <;> rfl

/-- What a member names is carried along, and so is what it leads to in any number of steps. -/
theorem iterate_named (h : Carries f g g') (hmember : g.member? id = some payload) (steps : Nat) :
    g'.named^[steps] (f id) = f (g.named^[steps] id) := by
  induction steps with
  | zero => rfl
  | succ steps ih =>
    obtain ⟨found, hfound⟩ := h.kept.member?_iterate_named hmember steps
    rw [Function.iterate_succ_apply', Function.iterate_succ_apply', ih, h.named hfound]

/-- **The types of values are carried along.** -/
theorem typeOf (h : Carries f g g') (hmember : g.member? id = some payload) :
    g'.typeOf (f id) = g.typeOf id := by
  have hlength : g'.members.length = g.members.length := by rw [h.members, List.length_map]
  obtain ⟨found, hfound⟩ := h.kept.member?_iterate_named hmember g.members.length
  rw [h.kept.typeOf_eq_iterate hmember, h.carried.typeOf_eq_iterate (h.member? hmember), hlength,
    h.iterate_named hmember, payload?_of_member? hfound, payload?_of_member? (h.member? hfound)]
  -- The type that a payload declares does not depend on its edges.
  cases found <;> rfl

/-- With the types the widths are carried along. -/
theorem widthOf (h : Carries f g g') (hmember : g.member? id = some payload) :
    g'.widthOf (f id) = g.widthOf id := by
  rw [Graph.widthOf, Graph.widthOf, h.typeOf hmember]

end Carries

/-! ## 4. The control flow -/

/-- The vertices between which edges are added vertex by vertex. -/
theorem mem_vertices_foldl {targets : NodeId → List NodeId} {ids : List NodeId}
    {flow : Digraph NodeId} :
    target ∈ (ids.foldl (fun flow id => (targets id).foldl
      (fun flow target => flow.addEdge id target) (flow.addVertex id)) flow).vertices
      ↔ target ∈ flow.vertices ∨ ∃ id ∈ ids, target = id ∨ target ∈ targets id := by
  induction ids generalizing flow with
  | nil => simp
  | cons first ids ih =>
    rw [List.foldl_cons, ih, Digraph.foldl_addEdge, Digraph.mem_vertices_addEdges,
      Digraph.mem_vertices_addVertex, List.exists_mem_cons_iff, ← or_assoc]
    refine or_congr_left ?_
    simp only [List.mem_map]
    clear ih
    grind

/-- Edges and vertices that are added one by one are listed once each. -/
theorem simple_foldl {targets : NodeId → List NodeId} {ids : List NodeId} {flow : Digraph NodeId}
    (h : flow.Simple) : (ids.foldl (fun flow id => (targets id).foldl
      (fun flow target => flow.addEdge id target) (flow.addVertex id)) flow).Simple := by
  have hedges : ∀ (id : NodeId) (ends : List NodeId) {flow : Digraph NodeId}, flow.Simple →
      (ends.foldl (fun flow target => flow.addEdge id target) flow).Simple := by
    intro id ends
    induction ends with
    | nil => exact fun h => h
    | cons first ends ih => exact fun h => ih (h.addEdge id first)
  induction ids generalizing flow with
  | nil => exact h
  | cons first ids ih => exact ih (hedges first _ (h.addVertex first))

theorem simple_controlFlow (g : Graph) : g.controlFlow.Simple :=
  simple_foldl ⟨List.nodup_nil, List.nodup_nil⟩

/-- Control goes to control nodes. -/
theorem Kept.control_of_mem_controlTargets (h : g.Kept) (hmember : g.member? id = some payload)
    (htarget : target ∈ g.controlTargets id) : target ∈ g.membersOf (.family .control) := by
  rw [mem_membersOf_iff]
  rcases (mem_controlTargets_iff hmember).mp htarget with ⟨slot, hslot, hset⟩ | ⟨-, huser, hmerge⟩
  · obtain ⟨found, hfound, hcontrol⟩ :=
      (fills_some hset).mp (h.filled hmember slot (List.mem_append_right _ hslot))
    rw [Payload.family_of_mem_successorSlots hslot] at hcontrol
    exact ⟨found, hfound, hcontrol⟩
  · obtain ⟨node, hnode, -, -⟩ := member?_eq_some_iff.mp hmember
    obtain ⟨found, hfound⟩ := h.member?_of_mem_users hnode huser
    rw [kind?_of_member? hfound] at hmerge
    exact ⟨found, hfound, by rw [Option.some.inj hmerge]; rfl⟩

/-- The vertices of the control flow are the control nodes. -/
theorem Kept.mem_vertices_controlFlow_iff (h : g.Kept) :
    id ∈ g.controlFlow.vertices ↔ id ∈ g.membersOf (.family .control) := by
  rw [Graph.controlFlow, mem_vertices_foldl]
  -- A vertex was added for itself, as a control node, or for an edge that leads to it.
  constructor
  · rintro (hnone | ⟨user, huser, rfl | htarget⟩)
    · exact absurd hnone List.not_mem_nil
    · exact huser
    · obtain ⟨payload, hmember, -⟩ := mem_membersOf_iff.mp huser
      exact h.control_of_mem_controlTargets hmember htarget
  · exact fun hid => .inr ⟨id, hid, .inl rfl⟩

namespace Carries

/-- Where control goes is carried along. -/
theorem mem_controlTargets_iff (h : Carries f g g') {found : Payload}
    (hmember : g.member? id = some payload) (htarget : g.member? target = some found) :
    f target ∈ g'.controlTargets (f id) ↔ target ∈ g.controlTargets id := by
  rw [Graph.mem_controlTargets_iff hmember, Graph.mem_controlTargets_iff (h.member? hmember),
    Payload.kind_mapEdges, h.mem_users_iff hmember htarget, h.kind? htarget,
      Payload.successorSlots_mapEdges]
  -- The second way control takes, to the merge that uses the end of a branch, is settled by users
  -- and kinds; the first are the successor slots.
  refine or_congr_left ?_
  constructor
  · rintro ⟨_, hcarried, hset⟩
    obtain ⟨slot, hslot, rfl⟩ := List.mem_map.mp hcarried
    obtain ⟨before, hbefore, hsame⟩ := Option.map_eq_some_iff.mp hset
    obtain ⟨offered, hoffered⟩ := h.kept.member?_of_mem_edges hmember
      (Payload.mem_edges_iff.mpr ⟨slot, List.mem_append_right _ hslot, hbefore⟩)
    exact ⟨slot, hslot, hbefore.trans (congrArg some (h.injective hoffered htarget hsame))⟩
  · rintro ⟨slot, hslot, hset⟩
    exact ⟨_, List.mem_map_of_mem hslot, by rw [Slot.through_target, hset, Option.map_some]⟩

/-- **The control flow is carried along.** -/
theorem controlFlow (h : Carries f g g') : Digraph.Carries f g.controlFlow g'.controlFlow := by
  have hvertex : ∀ {id}, id ∈ g.controlFlow.vertices → ∃ payload, g.member? id = some payload := by
    intro id hid
    obtain ⟨payload, hmember, -⟩ :=
      mem_membersOf_iff.mp (h.kept.mem_vertices_controlFlow_iff.mp hid)
    exact ⟨payload, hmember⟩
  have hinjective : ∀ {u v}, u ∈ g.controlFlow.vertices → v ∈ g.controlFlow.vertices →
      f u = f v → u = v := by
    intro u v hu hv hsame
    obtain ⟨payload, hmember⟩ := hvertex hu
    obtain ⟨found, hfound⟩ := hvertex hv
    exact h.injective hmember hfound hsame
  have hclosed : g.controlFlow.Closed := h.kept.controlFlow.1
  -- Vertices and edges are listed once each in both graphs, so it is enough that the same are
  -- listed.
  refine ⟨hclosed, h.carried.controlFlow.1, ?_, ?_, hinjective⟩
  · have hnodup : (g.controlFlow.vertices.map f).Nodup :=
      g.simple_controlFlow.vertices.map_on fun u hu v hv hsame => hinjective hu hv hsame
    refine (List.perm_ext_iff_of_nodup g'.simple_controlFlow.vertices hnodup).mpr fun place => ?_
    rw [h.carried.mem_vertices_controlFlow_iff, h.membersOf, List.mem_map, List.mem_map]
    simp only [h.kept.mem_vertices_controlFlow_iff]
  · have hnodup : (g.controlFlow.edges.map (Prod.map f f)).Nodup := by
      refine g.simple_controlFlow.edges.map_on ?_
      rintro ⟨u, v⟩ hedge ⟨u', v'⟩ hedge' hsame
      obtain ⟨hsource, htarget⟩ := Prod.mk.inj hsame
      rw [hinjective (hclosed hedge).1 (hclosed hedge').1 hsource,
        hinjective (hclosed hedge).2 (hclosed hedge').2 htarget]
    refine (List.perm_ext_iff_of_nodup g'.simple_controlFlow.edges hnodup).mpr
      fun ⟨source, goal⟩ => ?_
    rw [List.mem_map]
    constructor
    · intro hedge
      obtain ⟨hcontrol, htarget⟩ := edge_controlFlow.mp hedge
      rw [h.membersOf] at hcontrol
      obtain ⟨id, hid, rfl⟩ := List.mem_map.mp hcontrol
      obtain ⟨payload, hmember, -⟩ := mem_membersOf_iff.mp hid
      have hgoal := h.carried.control_of_mem_controlTargets (h.member? hmember) htarget
      rw [h.membersOf] at hgoal
      obtain ⟨target, hin, rfl⟩ := List.mem_map.mp hgoal
      obtain ⟨found, hfound, -⟩ := mem_membersOf_iff.mp hin
      exact ⟨(id, target), edge_controlFlow.mpr
        ⟨hid, (h.mem_controlTargets_iff hmember hfound).mp htarget⟩, rfl⟩
    · rintro ⟨⟨id, target⟩, hedge, hsame⟩
      obtain ⟨rfl, rfl⟩ := Prod.mk.inj hsame
      obtain ⟨hcontrol, htarget⟩ := edge_controlFlow.mp hedge
      obtain ⟨payload, hmember⟩ := hvertex (hclosed hedge).1
      obtain ⟨found, hfound⟩ := hvertex (hclosed hedge).2
      refine edge_controlFlow.mpr ⟨?_, (h.mem_controlTargets_iff hmember hfound).mpr htarget⟩
      rw [h.membersOf]
      exact List.mem_map_of_mem hcontrol

end Carries

/-! ## 5. Closing up -/

end Graph

end BehaviorGraph
