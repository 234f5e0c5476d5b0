/-
# What attaching does to a graph

Attaching a node walks over everything detached it has edges to.  The walk changes the graph only
when it leaves a node, and then it either enrolls the node or gives it up for a member of equal
payload.  This module has the invariant of the walk, `Attachment.Walking`, and from it what holds
whenever the walk stops, by success or by a fault:

* `attachResolving_kept`: **the records of the graph agree**;
* `attachResolving_grown`: what was no longer detached keeps its state and payload, no node changes
  its kind, and usages are only added to (`Graph.Grown`);
* `attachResolving_representative`: after a success a member of the same kind stands for the node.

The invariant has to say why the targets of a node are members when it is left.  They are entered
before, so a list of pending steps is read from the front: a step makes its node settled for all
steps behind it (`Attachment.Planned`).
-/
import BehaviorGraph.Proofs.Bookkeeping

namespace BehaviorGraph

/-! ## 1. Checks one after the other -/

/-- A list of checks passes if each of them does. -/
theorem forM_eq_ok_iff {ε α : Type} (check : α → Except ε Unit) (list : List α) :
    list.forM check = .ok () ↔ ∀ a ∈ list, check a = .ok () := by
  induction list with
  | nil => simp [pure, Except.pure]
  | cons a list ih =>
    rw [List.forM, List.forall_mem_cons, ← ih]
    cases h : check a with
    | error fault => simp [bind, Except.bind]
    | ok value => simp [bind, Except.bind]

/-! ## 2. Growing -/

/-- What may happen to a node while it or others are attached. -/
structure Node.Grown (node node' : Node) : Prop where
  kind : node'.kind = node.kind
  /-- Only a detached node changes more than its usages. -/
  settled : node.state ≠ .detached →
    node'.state = node.state ∧ node'.payload = node.payload ∧ node'.member = node.member
  /-- Usages are added behind the present ones. -/
  usages : node.usages <+: node'.usages

theorem Node.Grown.refl (node : Node) : Node.Grown node node :=
  ⟨rfl, fun _ => ⟨rfl, rfl, rfl⟩, List.prefix_refl _⟩

theorem Node.Grown.trans {node node' node'' : Node} (h : Node.Grown node node')
    (h' : Node.Grown node' node'') : Node.Grown node node'' := by
  refine ⟨h'.kind.trans h.kind, fun hstate => ?_, h.usages.trans h'.usages⟩
  obtain ⟨hs, hp, hm⟩ := h.settled hstate
  obtain ⟨hs', hp', hm'⟩ := h'.settled (by rwa [hs])
  exact ⟨hs'.trans hs, hp'.trans hp, hm'.trans hm⟩

namespace Graph

variable {g g' g'' : Graph} {id : NodeId} {payload : Payload} {node : Node}

/-- The arena keeps its places, and every node only grows. -/
structure Grown (g g' : Graph) : Prop where
  size : g'.nodes.size = g.nodes.size
  node : ∀ {id node}, g.node? id = some node → ∃ node', g'.node? id = some node' ∧ node.Grown node'

namespace Grown

theorem refl (g : Graph) : g.Grown g := ⟨rfl, fun h => ⟨_, h, Node.Grown.refl _⟩⟩

theorem trans (h : g.Grown g') (h' : g'.Grown g'') : g.Grown g'' := by
  refine ⟨h'.size.trans h.size, fun hnode => ?_⟩
  obtain ⟨node', hnode', hgrown⟩ := h.node hnode
  obtain ⟨node'', hnode'', hgrown'⟩ := h'.node hnode'
  exact ⟨node'', hnode'', hgrown.trans hgrown'⟩

/-- No node changes its kind. -/
theorem kind? (h : g.Grown g') (id : NodeId) : g'.kind? id = g.kind? id := by
  cases hnode : g.node? id with
  | none =>
    have hnode' : g'.node? id = none := by
      rw [node?_eq_none_iff] at hnode ⊢
      rwa [h.size]
    simp [Graph.kind?, hnode, hnode']
  | some node =>
    obtain ⟨node', hnode', hgrown⟩ := h.node hnode
    simp [Graph.kind?, hnode, hnode', hgrown.kind]

/-- Members stay members, with the same payload. -/
theorem member? (h : g.Grown g') (hmember : g.member? id = some payload) :
    g'.member? id = some payload := by
  obtain ⟨node, hnode, hstate, rfl⟩ := member?_eq_some_iff.mp hmember
  obtain ⟨node', hnode', hgrown⟩ := h.node hnode
  obtain ⟨hs, hp, -⟩ := hgrown.settled (by simp [hstate])
  exact member?_eq_some_iff.mpr ⟨node', hnode', hs.trans hstate, hp⟩

end Grown

/-! ## 3. The pending steps of a walk -/

namespace Attachment

variable {a a' : Attachment} {id rep : NodeId} {tasks rest : List (Task NodeId)}

/-- A member stands for the node. -/
def Settled (a : Attachment) (id : NodeId) : Prop :=
  ∃ payload, a.graph.member? (a.representative id) = some payload

/-- A slot the walk has checked: it is empty and may be, or its target is of the right kind and
either settled or one of the nodes that will be. -/
def Checked (a : Attachment) (soon : List NodeId) (slot : Slot) : Prop :=
  match slot.target with
  | none => slot.optional = true
  | some target =>
    (∃ kind, a.graph.kind? target = some kind ∧ kind.isA slot.family = true) ∧
      (a.Settled target ∨ target ∈ soon)

/-- A node that was entered: still detached, its slots checked. -/
def Ready (a : Attachment) (soon : List NodeId) (id : NodeId) : Prop :=
  ∃ node, a.graph.node? id = some node ∧ node.state = .detached ∧
    ∀ slot ∈ node.payload.slots, a.Checked soon slot

/-- **Every node still to be left is ready, given that each step settles its node.**  `soon` has the
nodes of the steps in front. -/
def Planned (a : Attachment) : List NodeId → List (Task NodeId) → Prop
  | _, [] => True
  | soon, .enter id :: rest => Planned a (id :: soon) rest
  | soon, .leave id :: rest => a.Ready soon id ∧ Planned a (id :: soon) rest

/-- The nodes still to be left, the innermost first. -/
def leaves : List (Task NodeId) → List NodeId
  | [] => []
  | .enter _ :: rest => leaves rest
  | .leave id :: rest => id :: leaves rest

/-- **The invariant of a walk that attaches nodes of `g`.** -/
structure Walking (g : Graph) (tasks : List (Task NodeId)) (a : Attachment) : Prop where
  kept : a.graph.Kept
  grown : g.Grown a.graph
  /-- Who stands for a node is a member of its kind. -/
  resolved : ∀ {id rep}, a.resolved.get? id = some rep →
    ∃ payload, a.graph.member? rep = some payload ∧ a.graph.kind? id = some payload.kind
  /-- The nodes entered and not left are those still to be left, once each. -/
  entered : leaves tasks = a.entered
  nodup : a.entered.Nodup
  planned : a.Planned [] tasks

theorem leaves_append_enter (targets : List NodeId) (rest : List (Task NodeId)) :
    leaves (targets.map .enter ++ rest) = leaves rest := by
  induction targets with
  | nil => rfl
  | cons target targets ih => exact ih

theorem planned_append_enter (targets soon : List NodeId) (rest : List (Task NodeId)) :
    a.Planned soon (targets.map .enter ++ rest) ↔ a.Planned (targets.reverse ++ soon) rest := by
  induction targets generalizing soon with
  | nil => rfl
  | cons target targets ih =>
    rw [List.map_cons, List.cons_append, List.reverse_cons, List.append_assoc]
    exact ih (target :: soon)

/-- A checked slot stays so when what is to be settled is settled, and when the graph grows. -/
theorem Checked.mono {soon soon' : List NodeId} {slot : Slot} (h : a.Checked soon slot)
    (hkind : ∀ id, a'.graph.kind? id = a.graph.kind? id)
    (hsettled : ∀ id, a.Settled id → a'.Settled id)
    (hsoon : ∀ id ∈ soon, a'.Settled id ∨ id ∈ soon') : a'.Checked soon' slot := by
  unfold Checked at h ⊢
  cases htarget : slot.target with
  | none => simpa [htarget] using h
  | some target =>
    simp only [htarget, hkind] at h ⊢
    refine ⟨h.1, ?_⟩
    rcases h.2 with hset | hmem
    · exact Or.inl (hsettled target hset)
    · exact hsoon target hmem

/-- **A plan stays valid** while kinds and settled nodes stay and the nodes to be left are not
touched. -/
theorem Planned.mono {soon soon' : List NodeId} (h : a.Planned soon tasks)
    (hkind : ∀ id, a'.graph.kind? id = a.graph.kind? id)
    (hsettled : ∀ id, a.Settled id → a'.Settled id)
    (hsoon : ∀ id ∈ soon, a'.Settled id ∨ id ∈ soon')
    (hleaves : ∀ id ∈ leaves tasks, ∀ node, a.graph.node? id = some node → node.state = .detached →
      ∃ node', a'.graph.node? id = some node' ∧ node'.state = .detached ∧
        node'.payload = node.payload) : a'.Planned soon' tasks := by
  induction tasks generalizing soon soon' with
  | nil => trivial
  | cons task rest ih =>
    have hcons : ∀ id, ∀ other ∈ id :: soon, a'.Settled other ∨ other ∈ id :: soon' := by
      intro id other hother
      rcases List.mem_cons.mp hother with rfl | hother
      · exact Or.inr (by simp)
      · exact (hsoon other hother).imp_right (List.mem_cons_of_mem id)
    cases task with
    | enter id => exact ih h (hcons id) hleaves
    | leave id =>
      obtain ⟨⟨node, hnode, hstate, hslots⟩, hrest⟩ := h
      refine ⟨?_, ih hrest (hcons id) fun other hother =>
        hleaves other (List.mem_cons_of_mem id hother)⟩
      obtain ⟨node', hnode', hstate', hpayload⟩ := hleaves id (by simp [leaves]) node hnode hstate
      refine ⟨node', hnode', hstate', fun slot hslot => ?_⟩
      rw [hpayload] at hslot
      exact (hslots slot hslot).mono hkind hsettled hsoon

/-! ## 4. Entering a node -/

/-- Who stands for a node is of its kind, and a member as soon as there is an entry. -/
theorem Walking.kind?_representative {g : Graph} (h : Walking g tasks a) (id : NodeId) :
    a.graph.kind? (a.representative id) = a.graph.kind? id := by
  unfold representative
  cases hrep : a.resolved.get? id with
  | none => rfl
  | some rep =>
    obtain ⟨payload, hmember, hkind⟩ := h.resolved hrep
    rw [Option.getD_some, kind?_of_member? hmember, hkind]

/-- What entering a node found out: it is settled, or it is detached and its slots pass. -/
theorem enter_eq_ok {answer : Option Payload} (h : a.enter id = .ok answer) :
    (answer = none ∧ ((∃ rep, a.resolved.get? id = some rep) ∨
      (a.resolved.get? id = none ∧ ∃ payload, a.graph.member? id = some payload))) ∨
    (∃ node, answer = some node.payload ∧ a.resolved.get? id = none ∧ a.graph.node? id = some node ∧
      node.state = .detached ∧ id ∉ a.entered ∧
      ∀ slot ∈ node.payload.slots,
        a.graph.checkSlot id slot (slot.target.map a.representative) = .ok ()) := by
  unfold enter at h
  by_cases hres : a.resolved.contains id = true
  · rw [if_pos hres] at h
    obtain ⟨rep, hrep⟩ := Option.isSome_iff_exists.mp hres
    exact Or.inl ⟨(Except.ok.inj h).symm, Or.inl ⟨rep, hrep⟩⟩
  · rw [if_neg hres] at h
    have hnone : a.resolved.get? id = none := by simpa [Table.contains] using hres
    cases hnode : a.graph.node? id with
    | none => simp [Graph.node, hnode, bind, Except.bind] at h
    | some node =>
      simp only [Graph.node, hnode, bind, Except.bind] at h
      cases hstate : node.state with
      | active =>
        simp only [hstate, pure, Except.pure, Except.ok.injEq] at h
        exact Or.inl ⟨h.symm, Or.inr ⟨hnone, node.payload,
          member?_eq_some_iff.mpr ⟨node, hnode, hstate, rfl⟩⟩⟩
      | deleted => simp [hstate, throw, throwThe, MonadExceptOf.throw] at h
      | detached =>
        simp only [hstate] at h
        by_cases hentered : id ∈ a.entered
        · simp [hentered, throw, throwThe, MonadExceptOf.throw] at h
        · simp only [hentered, if_false, pure, Except.pure] at h
          cases hcheck : node.payload.slots.forM fun slot =>
              a.graph.checkSlot id slot (slot.target.map a.representative) with
          | error fault => simp [hcheck] at h
          | ok value =>
            simp only [hcheck, Except.ok.injEq] at h
            exact Or.inr ⟨node, h.symm, hnone, rfl, hstate, hentered,
              (forM_eq_ok_iff _ _).mp hcheck⟩

/-- An empty slot passes its check if it may be empty. -/
theorem checkSlot_none_iff {g : Graph} {owner : NodeId} {slot : Slot} :
    g.checkSlot owner slot none = .ok () ↔ slot.optional = true := by
  unfold checkSlot
  cases slot.optional <;> simp

/-- A slot passes its check for a target that is not deleted and of the right kind. -/
theorem checkSlot_some_iff {g : Graph} {owner target : NodeId} {slot : Slot} :
    g.checkSlot owner slot (some target) = .ok () ↔
      ∃ node, g.node? target = some node ∧ node.state ≠ .deleted ∧
        node.kind.isA slot.family = true := by
  unfold checkSlot
  cases hnode : g.node? target with
  | none => simp [hnode]
  | some node =>
    by_cases hdeleted : node.state = .deleted
    · simp [hnode, Node.isDeleted, hdeleted]
    · cases hfamily : node.kind.isA slot.family <;>
        simp [hnode, Node.isDeleted, hdeleted, hfamily]

/-- **A step that has nothing to enter is done.** -/
theorem Walking.skip {g : Graph} (h : Walking g (.enter id :: rest) a)
    (henter : a.enter id = .ok none) :
    Walking g rest a ∧ a.Settled id := by
  have hsettled : a.Settled id := by
    rcases enter_eq_ok henter with ⟨-, ⟨rep, hrep⟩ | ⟨hnone, payload, hmember⟩⟩ | ⟨node, hbad, -⟩
    · obtain ⟨payload, hmember, -⟩ := h.resolved hrep
      exact ⟨payload, by simpa [representative, hrep] using hmember⟩
    · exact ⟨payload, by simpa [representative, hnone] using hmember⟩
    · exact absurd hbad (by simp)
  refine ⟨⟨h.kept, h.grown, h.resolved, h.entered, h.nodup, ?_⟩, hsettled⟩
  refine Planned.mono (show a.Planned [id] rest from h.planned) (fun _ => rfl)
    (fun _ hset => hset) ?_ ?_
  · intro other hother
    rw [List.mem_singleton] at hother
    exact Or.inl (hother ▸ hsettled)
  · exact fun other _ node hnode hstate => ⟨node, hnode, hstate, rfl⟩

/-- **A node that is entered is to be left behind its targets.** -/
theorem Walking.enter {g : Graph} (h : Walking g (.enter id :: rest) a)
    (henter : a.enter id = .ok (some payload)) :
    Walking g (payload.edges.map .enter ++ .leave id :: rest)
      { a with entered := id :: a.entered } := by
  rcases enter_eq_ok henter with ⟨hbad, -⟩ | ⟨node, hpayload, -, hnode, hstate, hfresh, hslots⟩
  · exact absurd hbad (by simp)
  obtain rfl := Option.some.inj hpayload
  refine ⟨h.kept, h.grown, h.resolved, ?_, List.nodup_cons.mpr ⟨hfresh, h.nodup⟩, ?_⟩
  · rw [leaves_append_enter]
    exact congrArg (id :: ·) h.entered
  · rw [planned_append_enter, List.append_nil]
    refine ⟨⟨node, hnode, hstate, fun slot hslot => ?_⟩, ?_⟩
    · have hcheck := hslots slot hslot
      unfold Checked
      cases htarget : slot.target with
      | none =>
        rw [htarget] at hcheck
        exact checkSlot_none_iff.mp hcheck
      | some target =>
        rw [htarget] at hcheck
        obtain ⟨found, hfound, -, hfamily⟩ := checkSlot_some_iff.mp hcheck
        refine ⟨⟨found.kind, ?_, hfamily⟩, Or.inr ?_⟩
        · have hkind := h.kind?_representative target
          simpa [Graph.kind?, hfound] using hkind.symm
        · exact List.mem_reverse.mpr (Payload.mem_edges_iff.mpr ⟨slot, hslot, htarget⟩)
    · refine Planned.mono (show a.Planned [id] rest from h.planned) (fun _ => rfl)
        (fun _ hset => hset) ?_ ?_
      · intro other hother
        rw [List.mem_singleton] at hother
        exact Or.inr (by simp [hother])
      · exact fun other _ node hnode hstate => ⟨node, hnode, hstate, rfl⟩

/-! ## 5. Leaving a node -/

/-- **When a node is left its redirected slots are filled**: every target is settled by then. -/
theorem Walking.fills {g : Graph} (h : Walking g tasks a)
    (hslots : ∀ slot ∈ payload.slots, a.Checked [] slot) :
    ∀ slot ∈ (payload.mapEdges a.representative).slots, a.graph.Fills slot := by
  intro slot' hslot'
  rw [Payload.slots_mapEdges] at hslot'
  obtain ⟨slot, hslot, rfl⟩ := List.mem_map.mp hslot'
  have hchecked := hslots slot hslot
  unfold Checked at hchecked
  cases htarget : slot.target with
  | none =>
    rw [htarget] at hchecked
    exact (fills_none (by simp [htarget])).mpr hchecked
  | some target =>
    rw [htarget] at hchecked
    obtain ⟨⟨kind, hkind, hfamily⟩, hsettled⟩ := hchecked
    obtain ⟨payload', hmember⟩ := hsettled.resolve_right (List.not_mem_nil)
    refine (fills_some (show _ = some (a.representative target) by simp [htarget])).mpr
      ⟨payload', hmember, ?_⟩
    have hsame := h.kind?_representative target
    rw [kind?_of_member? hmember, hkind] at hsame
    rw [Option.some.inj hsame]
    exact hfamily

theorem representative_of_insert (hresolved : a'.resolved = a.resolved.insert id rep)
    (other : NodeId) :
      a'.representative other = if other = id then rep else a.representative other := by
  unfold representative
  rw [hresolved]
  by_cases h : other = id
  · rw [if_pos h, h, Table.get?_insert_self, Option.getD_some]
  · rw [if_neg h, Table.get?_insert_of_ne _ _ h]

/-- What is common to the two ways of leaving a node: it is resolved to a member of its kind, and
the nodes still to be left are not touched. -/
theorem Walking.resolve {g : Graph} (h : Walking g (.leave id :: rest) a) (hkept : a'.graph.Kept)
    (hgrown : a.graph.Grown a'.graph) (hentered : a'.entered = a.entered.erase id)
    (hresolved : a'.resolved = a.resolved.insert id rep)
    (hrep : ∃ payload, a'.graph.member? rep = some payload ∧ a'.graph.kind? id = some payload.kind)
    (hothers : ∀ other, other ≠ id → ∀ node, a.graph.node? other = some node →
      ∃ node', a'.graph.node? other = some node' ∧ node'.state = node.state ∧
        node'.payload = node.payload) :
    Walking g rest a' ∧ a'.Settled id ∧ ∀ other, a.Settled other → a'.Settled other := by
  have hrepresentative := representative_of_insert hresolved
  have hsettled : a'.Settled id := by
    obtain ⟨payload, hmember, -⟩ := hrep
    exact ⟨payload, by rw [hrepresentative, if_pos rfl, hmember]⟩
  have hstays : ∀ other, a.Settled other → a'.Settled other := by
    rintro other ⟨payload, hmember⟩
    by_cases hother : other = id
    · exact hother ▸ hsettled
    · exact ⟨payload, by rw [hrepresentative, if_neg hother]; exact hgrown.member? hmember⟩
  have hleaves : id :: leaves rest = a.entered := h.entered
  have hnodup : (id :: leaves rest).Nodup := by rw [hleaves]; exact h.nodup
  have hentered' : a'.entered = leaves rest := by
    rw [hentered, ← hleaves, List.erase_cons_head]
  refine ⟨⟨hkept, h.grown.trans hgrown, ?_, hentered'.symm, ?_, ?_⟩, hsettled, hstays⟩
  · intro other rep' hrep'
    rw [hresolved] at hrep'
    by_cases hother : other = id
    · subst hother
      rw [Table.get?_insert_self] at hrep'
      obtain rfl := Option.some.inj hrep'
      exact hrep
    · rw [Table.get?_insert_of_ne _ _ hother] at hrep'
      obtain ⟨payload, hmember, hkind⟩ := h.resolved hrep'
      exact ⟨payload, hgrown.member? hmember, by rw [hgrown.kind?, hkind]⟩
  · rw [hentered']
    exact (List.nodup_cons.mp hnodup).2
  · refine Planned.mono h.planned.2 hgrown.kind? hstays ?_ ?_
    · intro other hother
      rw [List.mem_singleton] at hother
      exact Or.inl (hother ▸ hsettled)
    · intro other hother node hnode hstate
      have hne : other ≠ id := by
        rintro rfl
        exact (List.nodup_cons.mp hnodup).1 hother
      obtain ⟨node', hnode', hstate', hpayload'⟩ := hothers other hne node hnode
      exact ⟨node', hnode', hstate'.trans hstate, hpayload'⟩

theorem grown_discard (hnode : a.graph.node? id = some node) (hstate : node.state = .detached)
    (member : NodeId) : a.graph.Grown (a.discard id member).graph := by
  refine ⟨by simp [discard], fun {other old} hold => ?_⟩
  by_cases hother : other = id
  · subst hother
    rw [hnode] at hold
    obtain rfl := Option.some.inj hold
    exact ⟨{ node with state := .deleted }, by simp [discard, hnode],
      ⟨rfl, fun hne => absurd hstate hne, List.prefix_refl _⟩⟩
  · exact ⟨old, by simp only [discard, node?_modify_of_ne _ _ _ hother, hold], Node.Grown.refl old⟩

theorem grown_enroll (hnode : a.graph.node? id = some node) (hstate : node.state = .detached)
    (hkind : payload.kind = node.kind) : a.graph.Grown (a.enroll id payload).graph := by
  refine ⟨?_, fun {other old} hold => ⟨_, by rw [node?_enroll, hold]; rfl, ?_⟩⟩
  · simp only [enroll, size_addUsages]
    split <;> simp
  · by_cases hother : other = id
    · subst hother
      rw [hnode] at hold
      obtain rfl := Option.some.inj hold
      exact ⟨by simpa [Node.kind] using hkind, fun hne => absurd hstate hne,
        by simp⟩
    · simp only [if_neg hother]
      exact ⟨rfl, fun _ => ⟨rfl, rfl, rfl⟩, List.prefix_append _ _⟩

/-- A twin is a member that has the payload. -/
theorem twin?_eq_some_iff (h : a.graph.Kept) :
    a.twin? payload = some rep ↔ a.graph.member? rep = some payload ∧
    payload.kind.isUnique = true := by
  unfold twin?
  split
  · exact h.pooled?_eq_some_iff
  · rename_i hunique
    exact ⟨fun hnone => absurd hnone (by simp), fun hmember => absurd hmember.2 hunique⟩

/-- A unique payload without a twin is no member's. -/
theorem member?_ne_of_twin? (h : a.graph.Kept) (htwin : a.twin? payload = none)
    (hunique : payload.kind.isUnique = true) (other : NodeId) :
      a.graph.member? other ≠ some payload := by
  intro hmember
  rw [(twin?_eq_some_iff h).mpr ⟨hmember, hunique⟩] at htwin
  exact absurd htwin (by simp)

/-- **The two ways to leave a node**: it is deleted for its twin, or becomes a member. -/
theorem leave_cases {reports : List Report} (h : a.leave id = ⟨.ok (), a', reports⟩) :
    ∃ node, a.graph.node? id = some node ∧
      ((∃ member, a.twin? (node.payload.mapEdges a.representative) = some member ∧
        a' = a.discard id member) ∨
        a.twin? (node.payload.mapEdges a.representative) = none ∧
          a' = a.enroll id (node.payload.mapEdges a.representative)) := by
  unfold Attachment.leave at h
  cases hpayload : a.graph.payload? id with
  | none => simp [hpayload] at h
  | some payload =>
    obtain ⟨node, hnode, rfl⟩ := Option.map_eq_some_iff.mp hpayload
    simp only [hpayload] at h
    split at h
    · rename_i member htwin
      exact ⟨node, hnode, .inl ⟨member, htwin, (Outcome.mk.inj h).2.1.symm⟩⟩
    · rename_i htwin
      exact ⟨node, hnode, .inr ⟨htwin, (Outcome.mk.inj h).2.1.symm⟩⟩

/-- **Leaving a node never fails**: it becomes a member, or a member of equal payload stands for
it. -/
theorem Walking.leave {g : Graph} (h : Walking g (.leave id :: rest) a) :
    ∃ a' reports, a.leave id = ⟨.ok (), a', reports⟩ ∧ Walking g rest a' ∧ a'.Settled id ∧
      ∀ other, a.Settled other → a'.Settled other := by
  obtain ⟨⟨node, hnode, hstate, hslots⟩, -⟩ := h.planned
  have hpayload : a.graph.payload? id = some node.payload := by simp [payload?, hnode]
  have hfilled := h.fills hslots
  have hinactive : node.state ≠ .active := by simp [hstate]
  have hkindId : a.graph.kind? id = some node.kind := by simp [Graph.kind?, hnode]
  unfold Attachment.leave
  rw [hpayload]
  simp only
  cases htwin : a.twin? (node.payload.mapEdges a.representative) with
  | some member =>
    refine ⟨_, _, rfl, h.resolve (kept_discard h.kept hnode hinactive member)
      (grown_discard hnode hstate member) rfl rfl ?_ ?_⟩
    · obtain ⟨hmember, -⟩ := (twin?_eq_some_iff h.kept).mp htwin
      have hgrown := grown_discard hnode hstate member
      refine ⟨_, hgrown.member? hmember, ?_⟩
      rw [hgrown.kind?, hkindId, Payload.kind_mapEdges]
      rfl
    · intro other hother old hold
      exact ⟨old, by simp only [discard, node?_modify_of_ne _ _ _ hother, hold], rfl, rfl⟩
  | none =>
    have hgrown : a.graph.Grown (a.enroll id (node.payload.mapEdges a.representative)).graph :=
      grown_enroll hnode hstate (Payload.kind_mapEdges _ _)
    refine ⟨_, _, rfl, h.resolve (kept_enroll h.kept hnode hinactive hfilled
      (member?_ne_of_twin? h.kept htwin)) hgrown rfl rfl ?_ ?_⟩
    · refine ⟨_, by rw [member?_enroll hnode, if_pos rfl], ?_⟩
      rw [hgrown.kind?, hkindId, Payload.kind_mapEdges]
      rfl
    · intro other hother old hold
      refine ⟨_, by rw [node?_enroll, hold]; rfl, ?_, ?_⟩ <;> simp [hother]

theorem Walking.leave_ne_error {g : Graph} (h : Walking g (.leave id :: rest) a) {fault : Fault}
    {reports : List Report} : a.leave id ≠ ⟨.error fault, a', reports⟩ := by
  intro hfail
  obtain ⟨a'', reports', hleave, -⟩ := h.leave
  rw [hfail] at hleave
  exact absurd hleave (by simp)

/-! ## 6. The whole walk -/

/-- **What every step keeps holds when the walk stops**, with no step pending if it succeeded. -/
theorem walk_induct {P : List (Task NodeId) → Attachment → Prop}
    (hskip : ∀ {id rest a}, P (.enter id :: rest) a → a.enter id = .ok none → P rest a)
    (henter : ∀ {id rest a payload}, P (.enter id :: rest) a → a.enter id = .ok (some payload) →
      P (payload.edges.map .enter ++ .leave id :: rest) { a with entered := id :: a.entered })
    (hleave : ∀ {id rest a a' reports}, P (.leave id :: rest) a →
      a.leave id = ⟨.ok (), a', reports⟩ → P rest a')
    (hfail : ∀ {id rest a a' fault reports}, P (.leave id :: rest) a →
      a.leave id = ⟨.error fault, a', reports⟩ → P (.leave id :: rest) a')
    (bound : Nat) (tasks : List (Task NodeId)) (a : Attachment) (h : P tasks a) :
    ∃ rest, P rest (walk bound tasks a).state ∧
      ((walk bound tasks a).result = .ok () → rest = []) := by
  fun_induction walk bound tasks a with
  | case1 bound a => exact ⟨[], h, fun _ => rfl⟩
  | case2 bound a id rest fault a' reports hstep =>
    exact ⟨.leave id :: rest, hfail h hstep, fun hok => absurd hok (by simp)⟩
  | case3 bound a id rest a' reports hstep ih =>
    obtain ⟨rest', hrest', hdone⟩ := ih (hleave h hstep)
    exact ⟨rest', hrest', hdone⟩
  | case4 bound a id rest fault hstep =>
    exact ⟨.enter id :: rest, h, fun hok => absurd hok (by simp)⟩
  | case5 bound a id rest hstep ih => exact ih (hskip h hstep)
  | case6 a id rest payload hstep =>
    exact ⟨.enter id :: rest, h, fun hok => absurd hok (by simp)⟩
  | case7 a id rest payload hstep bound ih => exact ih (henter h hstep)

/-- The node a step is about. -/
def subject : Task NodeId → NodeId
  | .enter id => id
  | .leave id => id

/-- A node the walk has to settle: it did, or a step for it is pending. -/
def Due (a : Attachment) (tasks : List (Task NodeId)) (id : NodeId) : Prop :=
  a.Settled id ∨ id ∈ tasks.map subject

/-- **The walk keeps its invariant to the end**, and what was to be settled is if it succeeds. -/
theorem Walking.walk {g : Graph} {root : NodeId} (h : Walking g tasks a) (hdue : a.Due tasks root)
    (bound : Nat) :
    ∃ rest, Walking g rest (walk bound tasks a).state ∧ (walk bound tasks a).state.Due rest root ∧
      ((walk bound tasks a).result = .ok () → rest = []) := by
  have hinduct := walk_induct (P := fun tasks a => Walking g tasks a ∧ a.Due tasks root)
    ?_ ?_ ?_ ?_ bound tasks a ⟨h, hdue⟩
  · obtain ⟨rest, ⟨hwalking, hdue'⟩, hdone⟩ := hinduct
    exact ⟨rest, hwalking, hdue', hdone⟩
  · rintro id rest a ⟨hwalking, hdue⟩ hstep
    obtain ⟨hnext, hsettled⟩ := hwalking.skip hstep
    refine ⟨hnext, ?_⟩
    rcases hdue with hset | hmem
    · exact Or.inl hset
    · rcases List.mem_cons.mp hmem with rfl | hmem
      · exact Or.inl hsettled
      · exact Or.inr hmem
  · rintro id rest a payload ⟨hwalking, hdue⟩ hstep
    refine ⟨hwalking.enter hstep, hdue.imp_right fun hmem => ?_⟩
    rw [List.map_append]
    exact List.mem_append_right _ hmem
  · rintro id rest a a' reports ⟨hwalking, hdue⟩ hstep
    obtain ⟨a'', reports', hleave, hnext, hsettled, hstays⟩ := hwalking.leave
    rw [hstep] at hleave
    obtain ⟨-, rfl, -⟩ := Outcome.mk.inj hleave
    refine ⟨hnext, ?_⟩
    rcases hdue with hset | hmem
    · exact Or.inl (hstays root hset)
    · rcases List.mem_cons.mp hmem with rfl | hmem
      · exact Or.inl hsettled
      · exact Or.inr hmem
  · rintro id rest a a' fault reports ⟨hwalking, -⟩ hstep
    exact absurd hstep hwalking.leave_ne_error

end Attachment

/-! ## 7. Attaching -/

/-- At the start nothing is entered or resolved. -/
theorem walking_start (h : g.Kept) (id : NodeId) :
    Attachment.Walking g [.enter id] ⟨g, [], Table.empty⟩ :=
  ⟨h, Grown.refl g, fun hrep => absurd hrep (by simp [Table.get?_empty]), rfl,
    List.nodup_nil, trivial⟩

/-- Where a walk from one node ends. -/
theorem attachResolving_walking (h : g.Kept) (id : NodeId) :
    ∃ a rest, Attachment.Walking g rest a ∧ (attachResolving id g).state = a.graph ∧
      ∀ resolved, (attachResolving id g).result = .ok resolved → resolved = a.resolved ∧
        a.Settled id := by
  obtain ⟨rest, hwalking, hdue, hdone⟩ :=
    (walking_start h id).walk (show Attachment.Due _ _ id from Or.inr
      (by simp [Attachment.subject])) g.nodes.size
  unfold attachResolving
  cases hwalk : Attachment.walk g.nodes.size [.enter id] ⟨g, [], Table.empty⟩ with
  | mk result a reports =>
    rw [hwalk] at hwalking hdue hdone
    cases result with
    | error fault => exact ⟨a, rest, hwalking, rfl, fun _ hok => absurd hok (by simp)⟩
    | ok value =>
      refine ⟨a, rest, hwalking, rfl, fun resolved hok => ⟨(Except.ok.inj hok).symm, ?_⟩⟩
      rw [hdone rfl] at hdue
      exact hdue.resolve_right (by simp)

/-- **Attaching keeps agreement, also when it fails half-way.** -/
theorem attachResolving_kept (h : g.Kept) (id : NodeId) : (attachResolving id g).state.Kept := by
  obtain ⟨a, rest, hwalking, hstate, -⟩ := attachResolving_walking h id
  exact hstate ▸ hwalking.kept

/-- Attaching only lets the graph grow. -/
theorem attachResolving_grown (h : g.Kept) (id : NodeId) :
    g.Grown (attachResolving id g).state := by
  obtain ⟨a, rest, hwalking, hstate, -⟩ := attachResolving_walking h id
  exact hstate ▸ hwalking.grown

/-- **After a success a member of the node's kind stands for it.** -/
theorem attachResolving_representative (h : g.Kept) {id : NodeId} {resolved : Table NodeId NodeId}
    (hok : (attachResolving id g).result = .ok resolved) :
    ∃ payload, (attachResolving id g).state.member? ((resolved.get? id).getD id) = some payload ∧
      g.kind? id = some payload.kind := by
  obtain ⟨a, rest, hwalking, hstate, hresult⟩ := attachResolving_walking h id
  obtain ⟨rfl, payload, hmember⟩ := hresult resolved hok
  refine ⟨payload, hstate ▸ hmember, ?_⟩
  rw [← hwalking.grown.kind? id, ← hwalking.kind?_representative id, kind?_of_member? hmember]

/-- Attaching is attaching with a record of who stands for whom. -/
theorem attach_eq (id : NodeId) (g : Graph) :
    attach id g = ⟨(attachResolving id g).result.map fun resolved => (resolved.get? id).getD id,
      (attachResolving id g).state, (attachResolving id g).reports⟩ := by
  cases h : attachResolving id g with
  | mk result state reports =>
    cases result with
    | error fault => exact Run.bind_error h
    | ok resolved =>
      refine (Run.bind_ok h).trans ?_
      simp [Run.pure_apply, Outcome.after, Except.map]

theorem attach_kept (h : g.Kept) (id : NodeId) : (attach id g).state.Kept := by
  rw [attach_eq]
  exact attachResolving_kept h id

theorem attach_grown (h : g.Kept) (id : NodeId) : g.Grown (attach id g).state := by
  rw [attach_eq]
  exact attachResolving_grown h id

/-- **What attaching answers is a member of the kind of the node that was to be attached.** -/
theorem attach_member (h : g.Kept) {id new : NodeId} (hok : (attach id g).result = .ok new) :
    ∃ payload, (attach id g).state.member? new = some payload ∧ g.kind? id = some payload.kind := by
  rw [attach_eq] at hok ⊢
  cases hresult : (attachResolving id g).result with
  | error fault => simp [hresult, Except.map] at hok
  | ok resolved =>
    rw [hresult] at hok
    obtain rfl := Except.ok.inj hok
    exact attachResolving_representative h hresult

end Graph

end BehaviorGraph
