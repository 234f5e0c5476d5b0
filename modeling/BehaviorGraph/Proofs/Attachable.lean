/-
# What can be attached

A node can be attached if it is a member, or if it is detached, each of its slots has a target that
fits and was not deleted, and all these targets can be attached (`Graph.Attachable`).  As this is
an inductive notion no such node leads back to itself.  **Attaching succeeds exactly for these
nodes** (`attach_eq_ok_iff`).

One way follows the walk and keeps in mind what became of every node that was left
(`Attachment.Tracing`): it was asked for, it could be attached, and it is a member now, or was
deleted because it is unique and a member has its payload.  The other way shows that the walk meets
no fault (`walk_of_unhindered`): what it has entered asks for what it enters, and nothing asks for
itself.

Attaching one node may delete others, and so take away what others ask for.  `Graph.Settling` says
what may become of the nodes of a graph, and **what could be attached before still can be unless it
asks for a node that was deleted since** (`Settling.attachable_iff`).

Both invariants have a lemma for each step of the walk, `skip`, `enter` and `leave`, and are
carried to its end by the recursion of the walk.  They speak of the graph in the beginning, `g`,
although the walk reads the one it has come to: what was not left is the same in both
(`Tracing.spared`, `Tracing.before`).
-/
import BehaviorGraph.Proofs.Grafting

namespace BehaviorGraph

namespace Graph

variable {g g' g'' : Graph} {id target root rep : NodeId} {payload : Payload} {node node' : Node}

/-! ## 1. Attachable nodes -/

/-- Attaching the one node asks for the other: the one is detached and has an edge to it. -/
def Pulls (g : Graph) (id target : NodeId) : Prop :=
  ∃ node, g.node? id = some node ∧ node.state = .detached ∧ target ∈ node.payload.edges

/-- What attaching a node asks for, at whatever distance. -/
def AsksFor (g : Graph) : NodeId → NodeId → Prop := Relation.ReflTransGen g.Pulls

/-- **The nodes that can be attached.** -/
inductive Attachable (g : Graph) : NodeId → Prop where
  | member {id : NodeId} {payload : Payload} (hmember : g.member? id = some payload) :
    Attachable g id
  | detached {id : NodeId} {node : Node} (hnode : g.node? id = some node)
    (hstate : node.state = .detached)
    (hslots : ∀ slot ∈ node.payload.slots, g.checkSlot id slot slot.target = .ok ())
    (htargets : ∀ target ∈ node.payload.edges, Attachable g target) : Attachable g id

/-- A node that asks for others is detached. -/
theorem Pulls.not_member (h : g.Pulls id target) (hmember : g.member? id = some payload) :
    False := by
  obtain ⟨node, hnode, hstate, -⟩ := h
  obtain ⟨node', hnode', hactive, -⟩ := member?_eq_some_iff.mp hmember
  obtain rfl := Option.some.inj (hnode.symm.trans hnode')
  rw [hstate] at hactive
  exact absurd hactive (by simp)

namespace Attachable

/-- What it asks for can be attached as well. -/
theorem of_pulls (h : g.Attachable id) (hpulls : g.Pulls id target) : g.Attachable target := by
  cases h with
  | member hmember => exact (hpulls.not_member hmember).elim
  | detached hnode hstate hslots htargets =>
    obtain ⟨node', hnode', -, hin⟩ := hpulls
    obtain rfl := Option.some.inj (hnode.symm.trans hnode')
    exact htargets target hin

/-- The same at any distance, by induction on the way there. -/
theorem of_asksFor (h : g.Attachable id) (hasks : g.AsksFor id target) : g.Attachable target := by
  induction hasks with
  | refl => exact h
  | tail _ hpulls ih => exact ih.of_pulls hpulls

/-- What was deleted cannot be attached. -/
theorem state_ne_deleted (h : g.Attachable id) (hnode : g.node? id = some node) :
    node.state ≠ .deleted := by
  cases h with
  | member hmember =>
    obtain ⟨node', hnode', hactive, -⟩ := member?_eq_some_iff.mp hmember
    obtain rfl := Option.some.inj (hnode.symm.trans hnode')
    simp [hactive]
  | detached hnode' hstate =>
    obtain rfl := Option.some.inj (hnode.symm.trans hnode')
    simp [hstate]

theorem exists_node? (h : g.Attachable id) : ∃ node, g.node? id = some node := by
  cases h with
  | member hmember =>
    obtain ⟨node, hnode, -⟩ := member?_eq_some_iff.mp hmember
    exact ⟨node, hnode⟩
  | detached hnode => exact ⟨_, hnode⟩

/-- **Nothing that can be attached asks for itself.** -/
theorem not_self (h : g.Attachable id) : ¬ Relation.TransGen g.Pulls id id := by
  induction h with
  | member hmember =>
    intro hcycle
    obtain ⟨next, hpulls, -⟩ := Relation.TransGen.head'_iff.mp hcycle
    exact hpulls.not_member hmember
  | @detached id node hnode hstate hslots htargets ih =>
    intro hcycle
    obtain ⟨next, hpulls, hback⟩ := Relation.TransGen.head'_iff.mp hcycle
    obtain ⟨node', hnode', -, hin⟩ := hpulls
    obtain rfl := Option.some.inj (hnode.symm.trans hnode')
    exact ih next hin (Relation.TransGen.tail' hback ⟨_, hnode, hstate, hin⟩)

end Attachable

/-! ## 2. What becomes of the nodes that are left -/

/-- **What became of a detached node that a walk from `root` left**: `root` asks for it, it could
be attached, and now it is a member, or it was deleted because it is unique and a member has its
payload. -/
structure Left (g : Graph) (root : NodeId) (g' : Graph) (id rep : NodeId) : Prop where
  asked : g.AsksFor root id
  attachable : g.Attachable id
  ended : ∃ node node', g.node? id = some node ∧ node.state = .detached ∧ g'.node? id = some node' ∧
    (node.kind.isUnique = true → node'.payload = node.payload) ∧
    (rep = id ∧ node'.state = .active ∨
      node.kind.isUnique = true ∧ g'.member? rep = some node.payload ∧ node'.state = .deleted)

namespace Attachment

variable {a a' : Attachment} {tasks rest : List (Task NodeId)} {reports : List Report} {bound : Nat}

/-- **How far a walk from `root` has got.** -/
structure Tracing (g : Graph) (root : NodeId) (tasks : List (Task NodeId)) (a : Attachment) :
    Prop where
  walking : Walking g tasks a
  /-- What was not left is as it was. -/
  spared : ∀ {id node}, g.node? id = some node → a.resolved.get? id = none →
    ∃ node', a.graph.node? id = some node' ∧ node'.state = node.state ∧ node'.payload = node.payload
  left : ∀ {id rep}, a.resolved.get? id = some rep → Left g root a.graph id rep
  asked : ∀ task ∈ tasks, g.AsksFor root (subject task)

/-- In the beginning nothing was left, and the root asks for itself. -/
theorem tracing_start (h : g.Kept) (root : NodeId) :
    Tracing g root [.enter root] ⟨g, [], Table.empty⟩ where
  walking := walking_start h root
  spared := fun {_ node} hnode _ => ⟨node, hnode, rfl, rfl⟩
  left := fun hrep => absurd hrep (by simp [Table.get?_empty])
  asked := by
    intro task htask
    rw [List.mem_singleton.mp htask]
    exact .refl

namespace Tracing

/-- What was not left was as it is. -/
theorem before (h : Tracing g root tasks a) (hnone : a.resolved.get? id = none)
    (hnode : a.graph.node? id = some node) :
    ∃ node₀, g.node? id = some node₀ ∧ node₀.state = node.state ∧ node₀.payload = node.payload := by
  obtain ⟨node₀, hnode₀⟩ : ∃ node₀, g.node? id = some node₀ :=
    exists_node?_of_lt (h.walking.grown.size ▸ lt_size_of_node? hnode)
  obtain ⟨node', hnode', hstate, hpayload⟩ := h.spared hnode₀ hnone
  obtain rfl := Option.some.inj (hnode.symm.trans hnode')
  exact ⟨node₀, hnode₀, hstate.symm, hpayload.symm⟩

/-- A detached node was not left. -/
theorem not_left (h : Tracing g root tasks a) (hnode : a.graph.node? id = some node)
    (hstate : node.state = .detached) : a.resolved.get? id = none := by
  cases hrep : a.resolved.get? id with
  | none => rfl
  | some rep =>
    obtain ⟨_, node', -, -, hnode', -, hended⟩ := (h.left hrep).ended
    obtain rfl := Option.some.inj (hnode.symm.trans hnode')
    rw [hstate] at hended
    exact absurd hended (by simp)

/-- **What is settled could be attached.** -/
theorem attachable_of_settled (h : Tracing g root tasks a) (hsettled : a.Settled id) :
    g.Attachable id := by
  cases hrep : a.resolved.get? id with
  | some rep => exact (h.left hrep).attachable
  | none =>
    obtain ⟨payload, hmember⟩ := hsettled
    rw [representative_of_none hrep] at hmember
    obtain ⟨node, hnode, hactive, rfl⟩ := member?_eq_some_iff.mp hmember
    obtain ⟨node₀, hnode₀, hstate₀, -⟩ := h.before hrep hnode
    exact .member (member?_eq_some_iff.mpr ⟨node₀, hnode₀, hstate₀.trans hactive, rfl⟩)

/-- What is resolved or a member already is not entered. -/
theorem skip (h : Tracing g root (.enter id :: rest) a) (henter : a.enter id = .ok none) :
    Tracing g root rest a :=
  ⟨(h.walking.skip henter).1, h.spared, h.left, fun task htask =>
    h.asked task (List.mem_cons_of_mem _ htask)⟩

/-- A node that is entered asks for its targets, so the root does. -/
theorem enter (h : Tracing g root (.enter id :: rest) a)
    (henter : a.enter id = .ok (some payload)) :
    Tracing g root (payload.edges.map .enter ++ .leave id :: rest)
      { a with entered := id :: a.entered } := by
  refine ⟨h.walking.enter henter, h.spared, h.left, ?_⟩
  have hid : g.AsksFor root id := h.asked _ List.mem_cons_self
  rcases enter_eq_ok henter with ⟨hbad, -⟩ | ⟨node, hpayload, hnone, hnode, hstate, -⟩
  · exact absurd hbad (by simp)
  obtain rfl := Option.some.inj hpayload
  obtain ⟨node₀, hnode₀, hstate₀, hpayload₀⟩ := h.before hnone hnode
  intro task htask
  rcases List.mem_append.mp htask with hin | hin
  · obtain ⟨target, htarget, rfl⟩ := List.mem_map.mp hin
    exact .tail hid ⟨node₀, hnode₀, hstate₀.trans hstate, hpayload₀ ▸ htarget⟩
  · rcases List.mem_cons.mp hin with rfl | hin
    · exact hid
    · exact h.asked task (List.mem_cons_of_mem _ hin)

/-- A node can be attached when it is left. -/
theorem attachable_of_leave (h : Tracing g root (.leave id :: rest) a) : g.Attachable id := by
  obtain ⟨⟨node, hnode, hstate, hslots⟩, -⟩ := h.walking.planned
  obtain ⟨node₀, hnode₀, hstate₀, hpayload₀⟩ := h.before (h.not_left hnode hstate) hnode
  -- When a node is left, its targets were checked when it was entered and are settled since.
  have htargets : ∀ {slot target}, slot ∈ node.payload.slots → slot.target = some target →
      (∃ kind, a.graph.kind? target = some kind ∧ kind.isA slot.family = true) ∧
        g.Attachable target := by
    intro slot target hslot htarget
    have hchecked := hslots slot hslot
    unfold Checked at hchecked
    rw [htarget] at hchecked
    exact ⟨hchecked.1, h.attachable_of_settled (hchecked.2.resolve_right List.not_mem_nil)⟩
  refine .detached hnode₀ (hstate₀.trans hstate) (fun slot hslot => ?_) fun target htarget => ?_
  · rw [hpayload₀] at hslot
    cases htarget : slot.target with
    | none =>
      have hchecked := hslots slot hslot
      unfold Checked at hchecked
      rw [htarget] at hchecked
      exact checkSlot_none_iff.mpr hchecked
    | some target =>
      obtain ⟨⟨kind, hkind, hfamily⟩, hattachable⟩ := htargets hslot htarget
      obtain ⟨found, hfound⟩ := hattachable.exists_node?
      refine checkSlot_some_iff.mpr ⟨found, hfound, hattachable.state_ne_deleted hfound, ?_⟩
      rw [h.walking.grown.kind?, Graph.kind?, hfound] at hkind
      rwa [← Option.some.inj hkind] at hfamily
  · rw [hpayload₀] at htarget
    obtain ⟨slot, hslot, hsome⟩ := Payload.mem_edges_iff.mp htarget
    exact (htargets hslot hsome).2

/-- What is common to the two ways of leaving a node: nothing changes but the node that is left,
and for that `hleft` is asked. -/
theorem resolve (h : Tracing g root (.leave id :: rest) a) (hwalking : Walking g rest a')
    (hgrown : a.graph.Grown a'.graph) (hresolved : a'.resolved = a.resolved.insert id rep)
    (hothers : ∀ {other node}, other ≠ id → a.graph.node? other = some node →
      ∃ node', a'.graph.node? other = some node' ∧ node'.state = node.state ∧
        node'.payload = node.payload)
    (hleft : Left g root a'.graph id rep) : Tracing g root rest a' := by
  refine ⟨hwalking, ?_, ?_, fun task htask => h.asked task (List.mem_cons_of_mem _ htask)⟩
  · intro other node hnode hnone
    have hne : other ≠ id := by
      rintro rfl
      rw [hresolved, Table.get?_insert_self] at hnone
      exact absurd hnone (by simp)
    rw [hresolved, Table.get?_insert_of_ne _ _ hne] at hnone
    obtain ⟨between, hbetween, hstate, hpayload⟩ := h.spared hnode hnone
    obtain ⟨node', hnode', hstate', hpayload'⟩ := hothers hne hbetween
    exact ⟨node', hnode', hstate'.trans hstate, hpayload'.trans hpayload⟩
  · intro other rep' hrep'
    by_cases hne : other = id
    · subst hne
      rw [hresolved, Table.get?_insert_self] at hrep'
      exact Option.some.inj hrep' ▸ hleft
    · rw [hresolved, Table.get?_insert_of_ne _ _ hne] at hrep'
      obtain ⟨hasked, hattachable, node, between, hnode, hdetached, hbetween, hfixed, hended⟩ :=
        h.left hrep'
      obtain ⟨node', hnode', hstate', hpayload'⟩ := hothers hne hbetween
      refine ⟨hasked, hattachable, node, node', hnode, hdetached, hnode',
        fun hunique => hpayload'.trans (hfixed hunique), hended.imp ?_ ?_⟩
      · exact fun ⟨hself, hactive⟩ => ⟨hself, hstate'.trans hactive⟩
      · exact fun ⟨hunique, hmember, hdeleted⟩ =>
          ⟨hunique, hgrown.member? hmember, hstate'.trans hdeleted⟩

/-- **A node that is left becomes a member, or is deleted for a member that has its payload.** -/
theorem leave (h : Tracing g root (.leave id :: rest) a)
    (hleave : a.leave id = ⟨.ok (), a', reports⟩) :
    Tracing g root rest a' := by
  obtain ⟨a'', reports', hleave', hnext, -, -⟩ := h.walking.leave
  obtain ⟨-, rfl, -⟩ := Outcome.mk.inj (hleave.symm.trans hleave')
  obtain ⟨⟨node, hnode, hstate, -⟩, -⟩ := h.walking.planned
  obtain ⟨node₀, hnode₀, hstate₀, hpayload₀⟩ := h.before (h.not_left hnode hstate) hnode
  have hasked : g.AsksFor root id := h.asked _ List.mem_cons_self
  have hsame : node₀.kind = node.payload.kind := by rw [Node.kind, hpayload₀]
  obtain ⟨left, hleft, hcases⟩ := leave_cases hleave
  obtain rfl := Option.some.inj (hnode.symm.trans hleft)
  -- A member has the payload, and the node is deleted; or none has, and it becomes a member, with
  -- its edges led to who stands for their targets.  A unique payload has no edges, so it is the
  -- one the node came with.
  rcases hcases with ⟨member, htwin, rfl⟩ | ⟨-, rfl⟩
  · have hgrown := grown_discard hnode hstate member
    refine h.resolve hnext hgrown rfl ?_ ⟨hasked, h.attachable_of_leave, node₀,
      { node with state := .deleted }, hnode₀, hstate₀.trans hstate, by simp [discard, hnode],
      fun _ => hpayload₀.symm, .inr ?_⟩
    · intro other node hne hnode
      exact ⟨node, by simp only [discard, node?_modify_of_ne _ _ _ hne, hnode], rfl, rfl⟩
    · obtain ⟨hmember, hunique⟩ := (twin?_eq_some_iff h.walking.kept).mp htwin
      rw [Payload.kind_mapEdges] at hunique
      rw [Payload.mapEdges_of_isUnique hunique] at hmember
      exact ⟨hsame ▸ hunique, hpayload₀ ▸ hgrown.member? hmember, rfl⟩
  · have hgrown : a.graph.Grown (a.enroll id (node.payload.mapEdges a.representative)).graph :=
      grown_enroll hnode hstate (Payload.kind_mapEdges _ _)
    obtain ⟨node', hnode', hactive, hpayload'⟩ := member?_eq_some_iff.mp
      (show (a.enroll id (node.payload.mapEdges a.representative)).graph.member? id = some _ by
        rw [member?_enroll hnode, if_pos rfl])
    refine h.resolve hnext hgrown rfl ?_ ⟨hasked, h.attachable_of_leave, node₀, node', hnode₀,
      hstate₀.trans hstate, hnode', fun hunique => ?_, .inl ⟨rfl, hactive⟩⟩
    · intro other node hne hnode
      refine ⟨_, by rw [node?_enroll, hnode]; rfl, ?_, ?_⟩ <;> simp [hne]
    · rw [hpayload', hpayload₀]
      exact Payload.mapEdges_of_isUnique (hsame ▸ hunique) _

/-- The walk is traced to its end, at a fault as well as without one. -/
theorem walk (h : Tracing g root tasks a) (bound : Nat) :
    ∃ rest, Tracing g root rest (walk bound tasks a).state ∧
      ((Attachment.walk bound tasks a).result = .ok () → rest = []) := by
  exact walk_induct (P := Tracing g root) skip enter leave
    (fun h hfail => absurd hfail h.walking.leave_ne_error) bound tasks a h

end Tracing

/-! ## 3. A walk without faults -/

/-- Every node that is still to be left asks for the nodes of the steps in front.  This is what
keeps a node from being entered below itself. -/
def Descends (g : Graph) (tasks : List (Task NodeId)) : Prop :=
  tasks.Pairwise fun task later => ∀ id, later = .leave id →
    Relation.TransGen g.Pulls id (subject task)

/-- Entering a node puts its targets in front of it, and it asks for them; who asked for it asks
for them too. -/
theorem Descends.enter (h : Descends g (.enter id :: rest)) (hnode : g.node? id = some node)
    (hstate : node.state = .detached) :
    Descends g (node.payload.edges.map .enter ++ .leave id :: rest) := by
  obtain ⟨hfirst, hrest⟩ := List.pairwise_cons.mp h
  refine List.pairwise_append.mpr ⟨?_, List.pairwise_cons.mpr ⟨hfirst, hrest⟩, ?_⟩
  · refine List.pairwise_map.mpr (List.pairwise_of_forall fun _ _ other hother => ?_)
    exact absurd hother (by simp)
  · rintro task htask later hlater other rfl
    obtain ⟨target, htarget, rfl⟩ := List.mem_map.mp htask
    have hpulls : g.Pulls id target := ⟨node, hnode, hstate, htarget⟩
    rcases List.mem_cons.mp hlater with hself | hlater
    · obtain rfl := Task.leave.inj hself
      exact .single hpulls
    · exact .tail (hfirst _ hlater other rfl) hpulls

theorem leave_mem_of_mem_leaves (h : id ∈ leaves tasks) : Task.leave id ∈ tasks := by
  induction tasks with
  | nil => exact absurd h List.not_mem_nil
  | cons task rest ih =>
    cases task with
    | enter other => exact List.mem_cons_of_mem _ (ih h)
    | leave other =>
      rcases List.mem_cons.mp h with rfl | h
      · exact List.mem_cons_self
      · exact List.mem_cons_of_mem _ (ih h)

/-- Somebody stands for a node that was left. -/
theorem resolved_of_leave (h : a.leave id = ⟨.ok (), a', reports⟩) :
    ∃ rep, a'.resolved = a.resolved.insert id rep ∧ a'.entered = a.entered.erase id := by
  obtain ⟨node, -, ⟨member, -, rfl⟩ | ⟨-, rfl⟩⟩ := leave_cases h
  · exact ⟨member, rfl, rfl⟩
  · exact ⟨id, rfl, rfl⟩

/-- **A walk that will meet no fault.** -/
structure Unhindered (g : Graph) (root : NodeId) (tasks : List (Task NodeId)) (a : Attachment)
    (bound : Nat) : Prop where
  tracing : Tracing g root tasks a
  attachable : ∀ {id}, Task.enter id ∈ tasks → g.Attachable id
  descends : Descends g tasks
  bound : (remaining g a).card ≤ bound

namespace Unhindered

/-- Nothing that is to be entered was entered before: it would still have to be left, so it would
ask for itself. -/
theorem not_entered (h : Unhindered g root (.enter id :: rest) a bound) : id ∉ a.entered := by
  intro hin
  have hleaves : id ∈ leaves rest := h.tracing.walking.entered ▸ hin
  have hlater := leave_mem_of_mem_leaves hleaves
  exact (h.attachable List.mem_cons_self).not_self
    ((List.pairwise_cons.mp h.descends).1 _ hlater id rfl)

/-- The slots of a node that is to be entered pass. -/
theorem check_slots (h : Unhindered g root (.enter id :: rest) a bound)
    (hslots : ∀ slot ∈ payload.slots, g.checkSlot id slot slot.target = .ok ()) :
    payload.slots.forM (fun slot => a.graph.checkSlot id slot (slot.target.map a.representative))
      = .ok () := by
  refine (forM_eq_ok_iff _ _).mpr fun slot hslot => ?_
  have hbefore := hslots slot hslot
  cases htarget : slot.target with
  | none =>
    rw [htarget] at hbefore
    exact checkSlot_none_iff.mpr (checkSlot_none_iff.mp hbefore)
  | some target =>
    rw [htarget] at hbefore
    obtain ⟨found, hfound, hnotdeleted, hfamily⟩ := checkSlot_some_iff.mp hbefore
    rw [Option.map_some, checkSlot_some_iff]
    -- A target that was left has a member in its place, of the same kind; one that was not left is
    -- what it was in the beginning.
    cases hrep : a.resolved.get? target with
    | some rep =>
      obtain ⟨payload', hmember, hkind⟩ := h.tracing.walking.resolved hrep
      obtain ⟨node, hnode, hactive, rfl⟩ := member?_eq_some_iff.mp hmember
      rw [representative_of_resolved hrep]
      refine ⟨node, hnode, by simp [hactive], ?_⟩
      rw [h.tracing.walking.grown.kind?, Graph.kind?, hfound] at hkind
      rw [Node.kind, ← Option.some.inj hkind]
      exact hfamily
    | none =>
      obtain ⟨node, hnode, hstate, hpayload⟩ := h.tracing.spared hfound hrep
      rw [representative_of_none hrep]
      refine ⟨node, hnode, hstate ▸ hnotdeleted, ?_⟩
      rw [Node.kind, hpayload]
      exact hfamily

/-- **What can be attached can be entered.** -/
theorem exists_enter (h : Unhindered g root (.enter id :: rest) a bound) :
    ∃ answer, a.enter id = .ok answer := by
  cases hrep : a.resolved.get? id with
  | some rep => exact ⟨none, by simp [Attachment.enter, Table.contains, hrep]⟩
  | none =>
    cases h.attachable List.mem_cons_self with
    | member hmember =>
      have hactive := h.tracing.walking.grown.member? hmember
      obtain ⟨node, hnode, hstate, -⟩ := member?_eq_some_iff.mp hactive
      exact ⟨none, by simp [Attachment.enter, Table.contains, hrep, Graph.node, hnode, hstate, bind,
        Except.bind, pure, Except.pure]⟩
    | @detached _ node₀ hnode₀ hstate₀ hslots htargets =>
      obtain ⟨node, hnode, hstate, hpayload⟩ := h.tracing.spared hnode₀ hrep
      have hcheck := h.check_slots hslots
      refine ⟨some node.payload, ?_⟩
      simp only [Attachment.enter, Table.contains, hrep, Graph.node, hnode]
      simp [hstate, hstate₀, h.not_entered, hpayload, hcheck, bind, Except.bind, pure, Except.pure]

/-- A node that is skipped takes no step of the bound. -/
theorem skip (h : Unhindered g root (.enter id :: rest) a bound) (henter : a.enter id = .ok none) :
    Unhindered g root rest a bound :=
  ⟨h.tracing.skip henter, fun hin => h.attachable (List.mem_cons_of_mem _ hin),
    h.descends.tail, h.bound⟩

/-- Entering uses up one of the nodes that can still be entered, so the bound is not met. -/
theorem enter (h : Unhindered g root (.enter id :: rest) a bound)
    (henter : a.enter id = .ok (some payload)) : ∃ less, bound = less + 1 ∧
      Unhindered g root (payload.edges.map .enter ++ .leave id :: rest)
        { a with entered := id :: a.entered } less := by
  have htracing := h.tracing.enter henter
  rcases enter_eq_ok henter with ⟨hbad, -⟩ | ⟨node, hpayload, hnone, hnode, hstate, hfresh, -⟩
  · exact absurd hbad (by simp)
  obtain rfl := Option.some.inj hpayload
  obtain ⟨node₀, hnode₀, hstate₀, hpayload₀⟩ := h.tracing.before hnone hnode
  have hcard : (remaining g { a with entered := id :: a.entered }).card + 1
      = (remaining g a).card :=
    card_remaining_enter (lt_size_of_node? hnode₀) hnone hfresh
  have hbound := h.bound
  refine ⟨bound - 1, by omega, htracing, fun {other} hin => ?_, ?_, by omega⟩
  · rcases List.mem_append.mp hin with hin | hin
    · obtain ⟨target, htarget, hsame⟩ := List.mem_map.mp hin
      obtain rfl := Task.enter.inj hsame
      exact (h.attachable List.mem_cons_self).of_pulls
        ⟨node₀, hnode₀, hstate₀.trans hstate, hpayload₀ ▸ htarget⟩
    · exact h.attachable (List.mem_cons_of_mem _ ((List.mem_cons.mp hin).resolve_left (by simp)))
  · rw [← hpayload₀]
    exact h.descends.enter hnode₀ (hstate₀.trans hstate)

/-- Leaving settles a node for good and gives none back to be entered. -/
theorem leave (h : Unhindered g root (.leave id :: rest) a bound)
    (hleave : a.leave id = ⟨.ok (), a', reports⟩) : Unhindered g root rest a' bound := by
  obtain ⟨rep, hresolved, hentered⟩ := resolved_of_leave hleave
  exact ⟨h.tracing.leave hleave, fun hin => h.attachable (List.mem_cons_of_mem _ hin),
    h.descends.tail, (card_remaining_leave hresolved hentered).trans h.bound⟩

end Unhindered

/-- **The walk meets no fault**, by its recursion: leaving never fails, entering is allowed
(`exists_enter`), and the bound is not used up. -/
theorem walk_of_unhindered (h : Unhindered g root tasks a bound) :
    (walk bound tasks a).result = .ok () := by
  fun_induction walk bound tasks a with
  | case1 bound a => rfl
  | case2 bound a id rest fault a' reports hstep =>
    exact absurd hstep h.tracing.walking.leave_ne_error
  | case3 bound a id rest a' reports hstep ih => exact ih (h.leave hstep)
  | case4 bound a id rest fault hstep =>
    obtain ⟨answer, henter⟩ := h.exists_enter
    rw [hstep] at henter
    exact absurd henter (by simp)
  | case5 bound a id rest hstep ih => exact ih (h.skip hstep)
  | case6 a id rest payload hstep =>
    obtain ⟨less, hless, -⟩ := h.enter hstep
    exact absurd hless (by simp)
  | case7 a id rest payload hstep bound ih =>
    obtain ⟨less, hless, hnext⟩ := h.enter hstep
    obtain rfl := Nat.succ.inj hless
    exact ih hnext

end Attachment

/-! ## 4. Attaching -/

/-- Where a walk from one node ends. -/
theorem attach_traced (h : g.Kept) (id : NodeId) : ∃ a rest, Attachment.Tracing g id rest a ∧
    (attach id g).state = a.graph ∧
    ∀ rep, (attach id g).result = .ok rep → rep = a.representative id ∧ a.Settled id := by
  obtain ⟨rest, htracing, -⟩ := (Attachment.tracing_start h id).walk g.nodes.size
  obtain ⟨rest', -, hdue, hdone⟩ := (walking_start h id).walk
    (show Attachment.Due _ _ id from Or.inr (by simp [Attachment.subject])) g.nodes.size
  rw [attach_eq, attachResolving]
  cases hwalk : Attachment.walk g.nodes.size [.enter id] ⟨g, [], Table.empty⟩ with
  | mk result a reports =>
    rw [hwalk] at htracing hdue hdone
    cases result with
    | error fault => exact ⟨a, rest, htracing, rfl, fun _ hok => absurd hok (by simp [Except.map])⟩
    | ok value =>
      refine ⟨a, rest, htracing, rfl, fun rep hok => ⟨(Except.ok.inj hok).symm, ?_⟩⟩
      rw [hdone rfl] at hdue
      exact hdue.resolve_right (by simp)

/-- At the start no more nodes can be entered than there are. -/
theorem card_remaining_start (g : Graph) :
    (Attachment.remaining g ⟨g, [], Table.empty⟩).card ≤ g.nodes.size := by
  calc (Attachment.remaining g ⟨g, [], Table.empty⟩).card
      ≤ g.ids.toFinset.card := Finset.card_filter_le _ _
    _ ≤ g.ids.length := List.toFinset_card_le _
    _ = g.nodes.size := by simp [ids]

/-- **Attaching succeeds exactly for the nodes that can be attached.** -/
theorem attach_eq_ok_iff (h : g.Kept) :
    (∃ rep, (attach id g).result = .ok rep) ↔ g.Attachable id := by
  constructor
  · rintro ⟨rep, hok⟩
    obtain ⟨a, rest, htracing, -, hresult⟩ := attach_traced h id
    exact htracing.attachable_of_settled (hresult rep hok).2
  · intro hattachable
    have hunhindered :
        Attachment.Unhindered g id [.enter id] ⟨g, [], Table.empty⟩ g.nodes.size := by
      refine ⟨Attachment.tracing_start h id, fun {other} hin => ?_, List.pairwise_singleton _ _, ?_⟩
      · obtain rfl := Task.enter.inj (List.mem_singleton.mp hin)
        exact hattachable
      · exact card_remaining_start g
    have hwalk := Attachment.walk_of_unhindered hunhindered
    rw [attach_eq, attachResolving]
    cases hend : Attachment.walk g.nodes.size [.enter id] ⟨g, [], Table.empty⟩ with
    | mk result a reports =>
      rw [hend] at hwalk
      obtain rfl : result = .ok () := hwalk
      exact ⟨_, rfl⟩

/-- **Which member of the one graph stands for a node of the other**: a member that has its payload
if the node is unique, and the node itself if it is not. -/
def Represents (g g' : Graph) (id rep : NodeId) : Prop :=
  ∃ node payload, g.node? id = some node ∧ g'.member? rep = some payload ∧
    (node.kind.isUnique = true → payload = node.payload) ∧ (node.kind.isUnique = false → rep = id)

theorem represents_of_member (hmember : g.member? id = some payload)
    (hmember' : g'.member? id = some payload) : Represents g g' id id := by
  obtain ⟨node, hnode, -, rfl⟩ := member?_eq_some_iff.mp hmember
  exact ⟨node, node.payload, hnode, hmember', fun _ => rfl, fun _ => rfl⟩

/-- **What stands for a node that was attached**, and what becomes of the node if it is another. -/
theorem attach_represents (h : g.Kept) (hok : (attach id g).result = .ok rep) :
    Represents g (attach id g).state id rep ∧
    (rep ≠ id → ∃ node, (attach id g).state.node? id = some node ∧ node.state = .deleted) := by
  obtain ⟨a, rest, htracing, hstate, hresult⟩ := attach_traced h id
  obtain ⟨rfl, payload, hmember⟩ := hresult rep hok
  rw [hstate]
  -- A node the walk did not leave was a member before and stands for itself.
  cases hrep : a.resolved.get? id with
  | none =>
    rw [Attachment.representative_of_none hrep] at hmember ⊢
    obtain ⟨node', hnode', hactive, rfl⟩ := member?_eq_some_iff.mp hmember
    obtain ⟨node, hnode, hsame, hpayload⟩ := htracing.before hrep hnode'
    refine ⟨represents_of_member ?_ hmember, fun hne => absurd rfl hne⟩
    exact member?_eq_some_iff.mpr ⟨node, hnode, hsame.trans hactive, hpayload⟩
  | some rep =>
    rw [Attachment.representative_of_resolved hrep]
    obtain ⟨node, node', hnode, -, hnode', hfixed, ⟨rfl, hactive⟩
        | ⟨hunique, hmember', hdeleted⟩⟩ :=
      (htracing.left hrep).ended
    · refine ⟨⟨node, node'.payload, hnode, ?_, hfixed, fun _ => rfl⟩, fun hne => absurd rfl hne⟩
      exact member?_eq_some_iff.mpr ⟨node', hnode', hactive, rfl⟩
    · refine ⟨⟨node, node.payload, hnode, hmember', fun _ => rfl, fun hnot => ?_⟩,
        fun _ => ⟨node', hnode', hdeleted⟩⟩
      rw [hunique] at hnot
      exact absurd hnot (by simp)

/-! ## 5. What attaching leaves of the other nodes -/

/-- **What may become of the nodes of a graph while some of them are attached.**  A detached node
stays what it is, or becomes a member, or is deleted; only unique nodes that were asked for are. -/
structure Settling (g : Graph) (roots : List NodeId) (g' : Graph) : Prop where
  grown : g.Grown g'
  fixed : ∀ {id node node'}, g.node? id = some node → g'.node? id = some node' →
    node.kind.isUnique = true → node'.payload = node.payload
  detached : ∀ {id node'}, g'.node? id = some node' → node'.state = .detached →
    ∃ node, g.node? id = some node ∧ node.state = .detached ∧ node.payload = node'.payload
  deleted : ∀ {id node'}, g'.node? id = some node' → node'.state = .deleted →
    ∃ node, g.node? id = some node ∧ (node.state = .deleted ∨
      node.state = .detached ∧ node.kind.isUnique = true ∧ ∃ root ∈ roots, g.AsksFor root id)

namespace Settling

variable {roots roots' : List NodeId}

theorem refl (g : Graph) : g.Settling [] g :=
  ⟨.refl g, fun hnode hnode' _ => by rw [Option.some.inj (hnode.symm.trans hnode')],
    fun hnode hstate => ⟨_, hnode, hstate, rfl⟩, fun hnode hstate => ⟨_, hnode, .inl hstate⟩⟩

/-- Less is asked for: who is detached now was detached before, with the same edges. -/
theorem asksFor (h : g.Settling roots g') (hasks : g'.AsksFor id target) : g.AsksFor id target := by
  refine Relation.ReflTransGen.mono (fun id target hpulls => ?_) _ _ hasks
  obtain ⟨node', hnode', hstate', hin⟩ := hpulls
  obtain ⟨node, hnode, hstate, hpayload⟩ := h.detached hnode' hstate'
  exact ⟨node, hnode, hstate, hpayload ▸ hin⟩

theorem of_subset (h : g.Settling roots g') (hsub : roots ⊆ roots') : g.Settling roots' g' := by
  refine ⟨h.grown, h.fixed, h.detached, fun hnode hstate => ?_⟩
  obtain ⟨before, hbefore, hended⟩ := h.deleted hnode hstate
  refine ⟨before, hbefore, hended.imp_right ?_⟩
  rintro ⟨hdetached, hunique, root, hroot, hasks⟩
  exact ⟨hdetached, hunique, root, hsub hroot, hasks⟩

/-- One after the other.  What the second one deletes was asked for in the graph between, so it was
in the first one (`asksFor`). -/
theorem trans (h : g.Settling roots g') (h' : g'.Settling roots' g'') :
    g.Settling (roots ++ roots') g'' := by
  refine ⟨h.grown.trans h'.grown, fun hnode hnode' hunique => ?_, fun hnode hstate => ?_,
    fun hnode hstate => ?_⟩
  · obtain ⟨between, hbetween, hgrown⟩ := h.grown.node hnode
    rw [h'.fixed hbetween hnode' (hgrown.kind ▸ hunique), h.fixed hnode hbetween hunique]
  · obtain ⟨between, hbetween, hstate', hpayload'⟩ := h'.detached hnode hstate
    obtain ⟨before, hbefore, hstate'', hpayload''⟩ := h.detached hbetween hstate'
    exact ⟨before, hbefore, hstate'', hpayload''.trans hpayload'⟩
  · obtain ⟨between, hbetween, hdeleted | ⟨hdetached, hunique, root, hroot, hasks⟩⟩ :=
      h'.deleted hnode hstate
    · exact (h.of_subset (List.subset_append_left roots roots')).deleted hbetween hdeleted
    · obtain ⟨before, hbefore, hdetached', hpayload⟩ := h.detached hbetween hdetached
      refine ⟨before, hbefore, .inr ⟨hdetached', ?_, root, List.mem_append_right _ hroot,
        h.asksFor hasks⟩⟩
      rwa [Node.kind, hpayload]

/-- **What could be attached still can be unless it asks for a node that was deleted.** -/
theorem attachable_iff (h : g.Settling roots g') (hattachable : g.Attachable id) :
    g'.Attachable id ↔
    ∀ {target node}, g'.AsksFor id target → g'.node? target = some node →
      node.state ≠ .deleted := by
  refine ⟨fun h' target node hasks hnode => (h'.of_asksFor hasks).state_ne_deleted hnode,
    fun hspared => ?_⟩
  -- By induction on why it could be attached.  A detached node may have become a member by now, in
  -- which case it is done, or it is the node it was.
  induction hattachable with
  | member hmember => exact .member (h.grown.member? hmember)
  | @detached id node hnode hstate hslots htargets ih =>
    obtain ⟨node', hnode', hgrown⟩ := h.grown.node hnode
    cases hstate' : node'.state with
    | active => exact .member (member?_eq_some_iff.mpr ⟨node', hnode', hstate', rfl⟩)
    | deleted => exact absurd hstate' (hspared .refl hnode')
    | detached =>
      obtain ⟨node₀, hnode₀, -, hpayload⟩ := h.detached hnode' hstate'
      obtain rfl := Option.some.inj (hnode.symm.trans hnode₀)
      have hpulls : ∀ target ∈ node'.payload.edges, g'.Pulls id target :=
        fun target hin => ⟨node', hnode', hstate', hin⟩
      refine .detached hnode' hstate' (fun slot hslot => ?_) fun target hin => ?_
      · have hbefore := hslots slot (hpayload ▸ hslot)
        cases htarget : slot.target with
        | none =>
          rw [htarget] at hbefore
          exact Attachment.checkSlot_none_iff.mpr (Attachment.checkSlot_none_iff.mp hbefore)
        | some target =>
          rw [htarget] at hbefore
          obtain ⟨found, hfound, -, hfamily⟩ := Attachment.checkSlot_some_iff.mp hbefore
          obtain ⟨found', hfound', hgrown'⟩ := h.grown.node hfound
          have hin := Payload.mem_edges_iff.mpr ⟨slot, hslot, htarget⟩
          refine Attachment.checkSlot_some_iff.mpr
            ⟨found', hfound', hspared (.single (hpulls target hin)) hfound', ?_⟩
          rw [hgrown'.kind]
          exact hfamily
      · refine ih target (hpayload ▸ hin) fun {other found} hasks hfound => ?_
        exact hspared (.head (hpulls target hin) hasks) hfound

end Settling

/-- **What attaching one node may do to the others.** -/
theorem attach_settling (h : g.Kept) (id : NodeId) : g.Settling [id] (attach id g).state := by
  obtain ⟨a, rest, htracing, hstate, -⟩ := attach_traced h id
  rw [hstate]
  refine ⟨htracing.walking.grown, fun {other node node'} hnode hnode' hunique => ?_,
    fun hnode' hdetached => ?_, fun {other node'} hnode' hdeleted => ?_⟩
  · cases hrep : a.resolved.get? other with
    | none =>
      obtain ⟨found, hfound, -, hpayload⟩ := htracing.spared hnode hrep
      obtain rfl := Option.some.inj (hnode'.symm.trans hfound)
      exact hpayload
    | some rep =>
      obtain ⟨before, after, hbefore, -, hafter, hfixed, -⟩ := (htracing.left hrep).ended
      obtain rfl := Option.some.inj (hnode.symm.trans hbefore)
      obtain rfl := Option.some.inj (hnode'.symm.trans hafter)
      exact hfixed hunique
  · obtain ⟨node, hnode, hsame, hpayload⟩ :=
      htracing.before (htracing.not_left hnode' hdetached) hnode'
    exact ⟨node, hnode, hsame.trans hdetached, hpayload⟩
  · cases hrep : a.resolved.get? other with
    | none =>
      obtain ⟨node, hnode, hsame, -⟩ := htracing.before hrep hnode'
      exact ⟨node, hnode, .inl (hsame.trans hdeleted)⟩
    | some rep =>
      obtain ⟨node, after, hnode, hdetached, hafter, -, hended⟩ := (htracing.left hrep).ended
      obtain rfl := Option.some.inj (hnode'.symm.trans hafter)
      rw [hdeleted] at hended
      have hunique := (hended.resolve_left (by simp)).1
      exact ⟨node, hnode, .inr ⟨hdetached, hunique, id, List.mem_singleton_self id,
        (htracing.left hrep).asked⟩⟩

end Graph

end BehaviorGraph
