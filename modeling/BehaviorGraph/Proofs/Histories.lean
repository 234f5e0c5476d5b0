/-
# What every history of a graph keeps

A graph starts empty and is changed by the operations of `Move`, with any arguments, each of which
may fail half-way; from time to time it is replaced by a copy of its members.  `Graph.Reachable`
collects everything that can come of this, and `Reachable.kept` carries the agreement of the
records through.

What the checks of the records look for is then never found (`checkEdges_of_kept`,
`checkUnique_of_kept`), and the pool decides what adding a unique payload answers (`add_unique`).
Later additions answer the same, since **a unique node that was attached once keeps its payload
until it is deleted, and never returns after that** (`Aged`).

Ageing is proved operation by operation, like agreement: a lemma says of each that whatever it
leaves behind has only aged, and a history is an induction over its moves (`Later.ages`).  Copying
the members into a new graph gives them new places, so it is no part of `Later`.
-/
import BehaviorGraph.Check.Edges
import BehaviorGraph.Proofs.Adding
import BehaviorGraph.Proofs.Copying
import Mathlib

namespace BehaviorGraph

/-! ## 1. Moves -/

/-- One operation on a graph, with its arguments. -/
inductive Move where
  | create (payload : Payload)
  | setPayload (id : NodeId) (payload : Payload)
  | add (payload : Payload)
  | attach (id : NodeId)
  | delete (id : NodeId)
  | replace (old new : NodeId)
  | redirectInputs (owner : NodeId) (f : Nat → Option NodeId → Option NodeId)
  | redirectSuccessors (owner : NodeId) (f : Nat → Option NodeId → Option NodeId)
  | replaceInput (owner old new : NodeId)
  | copy (id : NodeId)
  | shallowCopy (id : NodeId)
  /-- Receive a copy of a node of `source`, given copies that were made before. -/
  | receive (source : Graph) (copies : Table NodeId NodeId) (root : NodeId)
  | setOwner (owner : Owner)

/-- **The graph an operation leaves behind**, whether it succeeds or fails. -/
def Move.after (move : Move) (g : Graph) : Graph :=
  match move with
  | .create payload => (Graph.create payload g).state
  | .setPayload id payload => (Graph.setPayload id payload g).state
  | .add payload => (Graph.add payload g).state
  | .attach id => (Graph.attach id g).state
  | .delete id => (Graph.delete id g).state
  | .replace old new => (Graph.replace old new g).state
  | .redirectInputs owner f => (Graph.redirectInputsAt owner f g).state
  | .redirectSuccessors owner f => (Graph.redirectSuccessorsAt owner f g).state
  | .replaceInput owner old new => (Graph.replaceInput owner old new g).state
  | .copy id => (Graph.copy id g).state
  | .shallowCopy id => (Graph.shallowCopy id g).state
  | .receive source copies root => (Graph.copyInto source root ⟨g, copies⟩).state.target
  | .setOwner owner => g.setOwner owner

namespace Graph

/-- **Graphs that some history leads to.** -/
inductive Reachable : Graph → Prop where
  | empty (name : String) : Reachable (empty name)
  | move {g : Graph} (h : Reachable g) (move : Move) : Reachable (move.after g)
  | compact {g : Graph} (h : Reachable g) : Reachable g.compact

/-- Graphs that some moves lead to from `g`. -/
inductive Later (g : Graph) : Graph → Prop where
  | refl : Later g g
  | move {g' : Graph} (h : Later g g') (move : Move) : Later g (move.after g')

variable {g g' g'' : Graph} {id : NodeId} {payload : Payload} {node : Node}

/-- **No operation breaks the agreement of the records.** -/
theorem Kept.after (h : g.Kept) (move : Move) : (move.after g).Kept := by
  cases move with
  | create payload => exact create_preserves payload g h
  | setPayload id payload => exact setPayload_preserves id payload g h
  | add payload => exact add_preserves payload g h
  | attach id => exact attach_kept h id
  | delete id => exact delete_kept h id
  | replace old new => exact replace_preserves old new g h
  | redirectInputs owner f => exact redirectAt_preserves Payload.isSide_inputs owner f g h
  | redirectSuccessors owner f => exact redirectAt_preserves Payload.isSide_successors owner f g h
  | replaceInput owner old new => exact redirectAt_preserves Payload.isSide_inputs owner _ g h
  | copy id => exact copy_preserves id g h
  | shallowCopy id => exact shallowCopy_preserves id g h
  | receive source copies root => exact copyInto_kept source root ⟨g, copies⟩ h
  | setOwner owner => exact h.of_same_members rfl rfl h.counted h.marked

/-- **The records of a reachable graph agree.** -/
theorem Reachable.kept (h : g.Reachable) : g.Kept := by
  induction h with
  | empty name => exact kept_empty name
  | move h move ih => exact ih.after move
  | compact h ih => exact compact_kept ih

/-- What holds of reachable graphs holds on the way to later ones, too. -/
theorem Later.kept (h : g.Later g') (hkept : g.Kept) : g'.Kept := by
  induction h with
  | refl => exact hkept
  | move h move ih => exact ih.after move

/-- A history goes on. -/
theorem Later.reachable (h : g.Later g') (hreachable : g.Reachable) : g'.Reachable := by
  induction h with
  | refl => exact hreachable
  | move h move ih => exact .move ih move

/-! ## 2. What the checks find -/

/-- The only term of a sum that is not zero. -/
theorem sum_map_ite_eq {items : List NodeId} (h : items.Nodup) (user : NodeId) (f : NodeId → Nat) :
    (items.map fun item => if item = user then f item else 0).sum
      = if user ∈ items then f user else 0 := by
  induction items with
  | nil => rfl
  | cons item items ih =>
    rw [List.nodup_cons] at h
    rw [List.map_cons, List.sum_cons, ih h.2]
    by_cases hitem : item = user
    · subst hitem
      simp [h.1]
    · simp [hitem, Ne.symm hitem]

/-- How often a node stands among the users the edges of the members give another one. -/
theorem count_expectedUsers (g : Graph) (id user : NodeId) :
    (g.expectedUsers id).count user = g.weight user id := by
  have hown : ∀ other, (((g.edges other).filter fun target => decide (target = id)).map
      fun _ => other).count user = if other = user then (g.edges other).count id else 0 := by
    intro other
    have hbeq : (fun target : NodeId => decide (target = id)) = fun target => target == id := by
      funext target
      rw [Bool.eq_iff_iff]
      simp
    rw [List.map_const', List.count_replicate, List.count_eq_length_filter, hbeq]
    simp
  rw [expectedUsers, List.count_flatMap]
  simp only [Function.comp_def, hown]
  rw [sum_map_ite_eq (nodup_members g) user fun other => (g.edges other).count id]
  cases hmember : g.member? user with
  | none =>
    rw [if_neg, weight_of_not_member hmember]
    intro hmem
    obtain ⟨payload, hsome⟩ := mem_members_iff.mp hmem
    rw [hmember] at hsome
    exact absurd hsome (by simp)
  | some payload =>
    rw [if_pos (mem_members_iff.mpr ⟨payload, hmember⟩), weight_of_member? hmember,
      edges_of_member? hmember]

/-- **The usages of a node are, in some order, the users of the edges that point to it.** -/
theorem Kept.usages_perm (h : g.Kept) (hnode : g.node? id = some node) :
    node.usages.Perm (g.expectedUsers id) := by
  refine List.perm_iff_count.mpr fun user => ?_
  rw [h.counted hnode user, count_expectedUsers]

/-- Sorted by their places, two lists of the same users are one list. -/
theorem mergeSort_eq_of_perm {users users' : List NodeId} (h : users.Perm users') :
    users.mergeSort (fun a b => decide (a.index ≤ b.index))
      = users'.mergeSort fun a b => decide (a.index ≤ b.index) := by
  have hsorted : ∀ items : List NodeId,
      (items.mergeSort fun a b => decide (a.index ≤ b.index)).Pairwise
        fun a b => decide (a.index ≤ b.index) = true := by
    refine List.pairwise_mergeSort ?_ ?_
    · intro a b c hab hbc
      simp only [decide_eq_true_eq] at hab hbc ⊢
      omega
    · intro a b
      simp only [Bool.or_eq_true, decide_eq_true_eq]
      omega
  refine List.Perm.eq_of_pairwise ?_ (hsorted users) (hsorted users') ?_
  · intro a b _ _ hab hba
    simp only [decide_eq_true_eq] at hab hba
    obtain ⟨i⟩ := a
    obtain ⟨j⟩ := b
    exact congrArg NodeId.mk (Nat.le_antisymm hab hba)
  · exact ((List.mergeSort_perm users _).trans h).trans (List.mergeSort_perm users' _).symm

/-- A slot that is filled as it has to be draws no complaint. -/
theorem slotComplaint?_eq_none {slot : Slot} (h : g.Fills slot) (id : NodeId) :
    g.slotComplaint? id slot = none := by
  unfold slotComplaint?
  cases htarget : slot.target with
  | none => simp [(fills_none htarget).mp h]
  | some target =>
    obtain ⟨found, hfound, hfamily⟩ := (fills_some htarget).mp h
    obtain ⟨node, hnode, hstate, rfl⟩ := member?_eq_some_iff.mp hfound
    simp [hnode, Node.isActive, hstate, Node.kind, hfamily]

/-- **The check of the edges finds nothing where the records agree.** -/
theorem checkEdges_of_kept (h : g.Kept) : g.checkEdges = .empty := by
  have hslots : g.members.flatMap g.slotComplaints = [] := by
    refine List.flatMap_eq_nil_iff.mpr fun id hid => ?_
    obtain ⟨payload, hmember⟩ := mem_members_iff.mp hid
    rw [slotComplaints, payload?_of_member? hmember]
    exact List.filterMap_eq_nil_iff.mpr fun slot hslot =>
      slotComplaint?_eq_none (h.filled hmember slot hslot) id
  have husages : g.members.filterMap g.usageComplaint? = [] := by
    refine List.filterMap_eq_nil_iff.mpr fun id hid => ?_
    obtain ⟨payload, hmember⟩ := mem_members_iff.mp hid
    obtain ⟨node, hnode, -, -⟩ := member?_eq_some_iff.mp hmember
    have hsame : g.usages id = node.usages := by simp [usages, hnode]
    unfold usageComplaint?
    simp only [hsame]
    rw [if_pos (mergeSort_eq_of_perm (h.usages_perm hnode))]
  rw [checkEdges, hslots, husages]
  rfl

/-- Two members of a unique kind with the same payload are one. -/
theorem Kept.unique_member (h : g.Kept) {id' : NodeId} (hmember : g.member? id = some payload)
    (hmember' : g.member? id' = some payload) (hunique : payload.kind.isUnique = true) :
      id = id' := by
  have hpooled := h.pooled?_eq_some_iff.mpr ⟨hmember, hunique⟩
  rw [h.pooled?_eq_some_iff.mpr ⟨hmember', hunique⟩] at hpooled
  exact (Option.some.inj hpooled).symm

/-- Payloads that were not seen and do not repeat give no duplicates. -/
theorem duplicates_eq_nil {seen : List (NodeId × Payload)} {ids : List NodeId} (hnodup : ids.Nodup)
    (hseen : ∀ entry ∈ seen, ∀ id ∈ ids, g.payload? id ≠ some entry.2)
    (hdistinct : ∀ id ∈ ids, ∀ id' ∈ ids, ∀ payload, g.payload? id = some payload →
      g.payload? id' = some payload → id = id') : g.duplicates seen ids = [] := by
  induction ids generalizing seen with
  | nil => rfl
  | cons id ids ih =>
    rw [List.nodup_cons] at hnodup
    have hrest := fun other hother => hdistinct other (List.mem_cons_of_mem id hother)
    unfold duplicates
    cases hpayload : g.payload? id with
    | none =>
      exact ih hnodup.2 (fun entry hentry other hother =>
        hseen entry hentry other (List.mem_cons_of_mem id hother))
        fun other hother other' hother' => hrest other hother other'
          (List.mem_cons_of_mem id hother')
    | some payload =>
      have hfind : seen.find? (fun entry => decide (entry.2 = payload)) = none := by
        refine List.find?_eq_none.mpr fun entry hentry hsame => ?_
        exact hseen entry hentry id (by simp) (by rw [hpayload, of_decide_eq_true hsame])
      simp only [hfind]
      refine ih hnodup.2 ?_
        fun other hother other' hother' => hrest other hother other'
          (List.mem_cons_of_mem id hother')
      intro entry hentry other hother
      rcases List.mem_append.mp hentry with hold | hnew
      · exact hseen entry hold other (List.mem_cons_of_mem id hother)
      · rw [List.mem_singleton.mp hnew]
        intro hsame
        have := hdistinct id (by simp) other (List.mem_cons_of_mem id hother) payload hpayload hsame
        exact hnodup.1 (this ▸ hother)

/-- **The check of the unique nodes finds nothing where the records agree.** -/
theorem checkUnique_of_kept (h : g.Kept) : g.checkUnique = .empty := by
  have hnil : g.duplicates [] (g.membersOf (.family .unique)) = [] := by
    refine duplicates_eq_nil ((nodup_members g).filter _) (by simp) ?_
    intro id hid id' hid' payload hpayload hpayload'
    have hfound : ∀ {other}, other ∈ g.membersOf (.family .unique) →
        g.payload? other = some payload →
        g.member? other = some payload ∧ payload.kind.isUnique = true := by
      intro other hother hsame
      obtain ⟨hmem, hfilter⟩ := List.mem_filter.mp hother
      obtain ⟨found, hfound⟩ := mem_members_iff.mp hmem
      rw [payload?_of_member? hfound] at hsame
      obtain rfl := Option.some.inj hsame
      rw [kind?_of_member? hfound] at hfilter
      exact ⟨hfound, hfilter⟩
    obtain ⟨hmember, hunique⟩ := hfound hid hpayload
    exact h.unique_member hmember (hfound hid' hpayload').1 hunique
  rw [checkUnique, hnil]
  rfl

/-! ## 3. Unique nodes in later graphs -/

/-- What may become of a node: once attached or deleted it is never detached again, deletion is for
good, and a unique node keeps its payload. -/
structure Aged (node node' : Node) : Prop where
  deleted : node.state = .deleted → node'.state = .deleted
  settled : node.state ≠ .detached → node'.state ≠ .detached
  payload : node.state ≠ .detached → node.kind.isUnique = true → node'.payload = node.payload

theorem Aged.refl (node : Node) : Aged node node := ⟨id, id, fun _ _ => rfl⟩

/-- Ageing twice is ageing. -/
theorem Aged.trans {node node' node'' : Node} (h : Aged node node') (h' : Aged node' node'') :
    Aged node node'' := by
  refine ⟨fun hs => h'.deleted (h.deleted hs), fun hs => h'.settled (h.settled hs), ?_⟩
  intro hs hunique
  have hsame := h.payload hs hunique
  have hunique' : node'.kind.isUnique = true := by rwa [Node.kind, hsame]
  rw [h'.payload (h.settled hs) hunique', hsame]

/-- Every node of `g` is still there, aged. -/
def Ages (g g' : Graph) : Prop :=
  ∀ id node, g.node? id = some node → ∃ node', g'.node? id = some node' ∧ Aged node node'

theorem Ages.refl (g : Graph) : g.Ages g := fun _ node h => ⟨node, h, Aged.refl node⟩

/-- The same of graphs. -/
theorem Ages.trans (h : g.Ages g') (h' : g'.Ages g'') : g.Ages g'' := by
  intro id node hnode
  obtain ⟨node', hnode', haged⟩ := h id node hnode
  obtain ⟨node'', hnode'', haged'⟩ := h' id node' hnode'
  exact ⟨node'', hnode'', haged.trans haged'⟩

/-- It is enough to know what becomes of each node by itself. -/
theorem Ages.of_map {f : NodeId → Node → Node} (hnode : ∀ id, g'.node? id = (g.node? id).map (f id))
    (hf : ∀ {id node}, g.node? id = some node → Aged node (f id node)) : g.Ages g' := by
  intro id node hfound
  exact ⟨f id node, by rw [hnode, hfound, Option.map_some], hf hfound⟩

/-- A graph that grew has aged: attaching makes detached nodes members or deletes them. -/
theorem Grown.ages (h : g.Grown g') : g.Ages g' := by
  intro id node hnode
  obtain ⟨node', hnode', hgrown⟩ := h.node hnode
  refine ⟨node', hnode', fun hs => ?_, fun hs => ?_, fun hs _ => (hgrown.settled hs).2.1⟩
  · rw [(hgrown.settled (by simp [hs])).1, hs]
  · rw [(hgrown.settled hs).1]
    exact hs

theorem ages_push (g : Graph) (payload : Payload) : g.Ages (g.push payload) := by
  intro id node hnode
  refine ⟨node, ?_, Aged.refl node⟩
  rw [node?_push, if_neg (Nat.ne_of_lt (lt_size_of_node? hnode)), hnode]

theorem ages_attach (h : g.Kept) (id : NodeId) : g.Ages (attach id g).state :=
  (attach_grown h id).ages

/-- A member that is withdrawn is deleted, and keeps its payload. -/
theorem ages_withdraw (g : Graph) (id : NodeId) (payload : Payload) :
    g.Ages (g.withdraw id payload) := by
  refine Ages.of_map (g.node?_withdraw id payload) fun {other node} _ => ?_
  by_cases hother : other = id
  · simp only [if_pos hother]
    exact ⟨fun _ => rfl, fun _ => by simp, fun _ _ => rfl⟩
  · simp only [if_neg hother]
    exact ⟨fun hs => hs, fun hs => hs, fun _ _ => rfl⟩

/-- Deleting withdraws a member, or a detached node, or fails. -/
theorem ages_delete (g : Graph) (id : NodeId) : g.Ages (delete id g).state := by
  cases hnode : g.node? id with
  | none => simpa [delete, hnode] using Ages.refl g
  | some node =>
    by_cases hnil : node.usages = []
    · cases hstate : node.state with
      | active =>
        rw [(delete_eq_withdraw hnode hstate hnil).2]
        exact ages_withdraw g id node.payload
      | deleted => simpa [delete, hnode, Node.isDeleted, hstate] using Ages.refl g
      | detached =>
        have hages : g.Ages (g.modify id fun node =>
            { node with state := .deleted, member := false }) := by
          intro other before hbefore
          by_cases hother : other = id
          · subst hother
            refine ⟨{ before with state := .deleted, member := false }, ?_,
              fun _ => rfl, fun _ => by simp, fun _ _ => rfl⟩
            rw [node?_modify_self, hbefore, Option.map_some]
          · exact ⟨before, by rw [node?_modify_of_ne _ _ _ hother, hbefore], Aged.refl before⟩
        simpa [delete, hnode, Node.isDeleted, Node.isActive, hstate, hnil] using hages
    · have hsame : (delete id g).state = g := by
        cases hdeleted : node.isDeleted <;> simp [delete, hnode, hdeleted, hnil]
      rw [hsame]
      exact Ages.refl g

/-- Replacing attaches, moves edges that no unique node has, and withdraws. -/
theorem ages_replace (h : g.Kept) (old new : NodeId) :
    (replace old new).Ends g fun _ g' => g.Ages g' := by
  refine (replace_ends h old new).imp fun r g' hreplaced => ?_
  have hattached := ages_attach h new
  cases hreplaced with
  | inactive => exact Ages.refl g
  | unattached => exact hattached
  | same => exact hattached
  | reached => exact hattached
  | misfit => exact hattached
  | moved hold hnew hne =>
    refine (hattached.trans (Ages.of_map (node?_redirect hne _) fun {id node} _ => ?_)).trans
      (ages_withdraw _ _ _)
    refine ⟨fun hs => hs, fun hs => hs, fun _ hunique => ?_⟩
    simp only
    split
    · exact Payload.mapEdges_of_isUnique hunique _
    · rfl

/-- Overwriting the edges of a member changes no unique payload. -/
theorem ages_overwrite (g : Graph) (owner : NodeId) (slots : List Slot)
    (targets : List (Option NodeId)) {assign : List (Option NodeId) → Payload → Payload}
    (hassign : ∀ given payload, payload.kind.isUnique = true → assign given payload = payload) :
    g.Ages (g.overwrite owner slots targets assign) := by
  refine Ages.of_map (node?_overwrite _ _ _ _ _) fun {id node} _ => ?_
  refine ⟨fun hs => hs, fun hs => hs, fun _ hunique => ?_⟩
  simp only
  split
  · exact hassign _ _ hunique
  · rfl

/-- Redirecting attaches and then overwrites. -/
theorem ages_retarget (h : g.Kept) (owner : NodeId) (slots : List Slot)
    (targets : List (Option NodeId)) {assign : List (Option NodeId) → Payload → Payload}
    (hassign : ∀ given payload, payload.kind.isUnique = true → assign given payload = payload) :
    (retarget owner slots targets assign).Ends g fun _ g' => g.Ages g' := by
  refine (retarget_ends g owner slots targets assign).imp fun r g' hredirected => ?_
  obtain ⟨-, hgrown, -⟩ := attachTargets_ends h (slots.zip targets)
  cases hredirected with
  | refused => exact Ages.refl g
  | unattached => exact hgrown.ages
  | unchanged => exact hgrown.ages
  | changed => exact hgrown.ages.trans (ages_overwrite _ _ _ _ hassign)

/-- This holds for either sort of edges. -/
theorem ages_redirectAt (h : g.Kept) {slots : Payload → List Slot}
    {assign : List (Option NodeId) → Payload → Payload}
    (hassign : ∀ given payload, payload.kind.isUnique = true → assign given payload = payload)
    (owner : NodeId) (f : Nat → Option NodeId → Option NodeId) :
    (redirectAt slots assign owner f).Ends g fun _ g' => g.Ages g' :=
  ends_onMember (fun _ _ => Ages.refl g) fun _ _ => ages_retarget h owner _ _ hassign

theorem ages_redirectInputsAt (h : g.Kept) (owner : NodeId)
    (f : Nat → Option NodeId → Option NodeId) :
    (redirectInputsAt owner f).Ends g fun _ g' => g.Ages g' :=
  ages_redirectAt h (fun _ _ hunique => Payload.assignInputs_of_isUnique hunique _) owner f

theorem ages_redirectSuccessorsAt (h : g.Kept) (owner : NodeId)
    (f : Nat → Option NodeId → Option NodeId) :
    (redirectSuccessorsAt owner f).Ends g fun _ g' => g.Ages g' :=
  ages_redirectAt h (fun _ _ hunique => Payload.assignSuccessors_of_isUnique hunique _) owner f

/-- Setting the payload of a detached node is allowed, as it has not been attached yet. -/
theorem ages_setPayload (g : Graph) (id : NodeId) (payload : Payload) :
    g.Ages (setPayload id payload g).state := by
  unfold setPayload
  cases hnode : g.node? id with
  | none => exact Ages.refl g
  | some node =>
    cases hstate : node.state with
    | active => simpa only [hstate] using Ages.refl g
    | deleted => simpa only [hstate] using Ages.refl g
    | detached =>
      simp only [hstate]
      intro other before hbefore
      by_cases hother : other = id
      · subst hother
        rw [hnode] at hbefore
        obtain rfl := Option.some.inj hbefore
        refine ⟨{ node with payload := payload }, ?_, by simp [hstate], by simp [hstate],
          by simp [hstate]⟩
        rw [node?_modify_self, hnode, Option.map_some]
      · exact ⟨before, by rw [node?_modify_of_ne _ _ _ hother, hbefore], Aged.refl before⟩

/-- Nodes age in agreement. -/
theorem ages_after (h : g.Kept) (move : Move) : g.Ages (move.after g) := by
  have hpush : ∀ g' payload, g.Ages g' ∧ g'.Kept → g.Ages (g'.push payload) ∧
      (g'.push payload).Kept :=
    fun g' payload hages => ⟨hages.1.trans (ages_push g' payload), hages.2.push payload⟩
  cases move with
  | create payload => exact ages_push g payload
  | setPayload id payload => exact ages_setPayload g id payload
  | add payload =>
    exact (ages_push g payload).trans (ages_attach (h.push payload) ⟨g.nodes.size⟩)
  | attach id => exact ages_attach h id
  | delete id => exact ages_delete g id
  | replace old new => exact ages_replace h old new
  | redirectInputs owner f => exact ages_redirectInputsAt h owner f
  | redirectSuccessors owner f => exact ages_redirectSuccessorsAt h owner f
  | replaceInput owner old new => exact ages_redirectInputsAt h owner _
  | copy id => exact (copy_pushes hpush id ⟨Ages.refl g, h⟩).1
  | shallowCopy id => exact (shallowCopy_pushes hpush id ⟨Ages.refl g, h⟩).1
  | receive source copies root =>
    refine (copyInto_pushes hpush ?_ source root ⟨g, copies⟩ ⟨Ages.refl g, h⟩).1
    intro g' id hages
    exact ⟨hages.1.trans (attachResolving_grown hages.2 id).ages, attachResolving_kept hages.2 id⟩
  | setOwner owner => exact fun _ node hnode => ⟨node, hnode, Aged.refl node⟩

/-- **Whatever happens to a graph, its nodes only age.** -/
theorem Later.ages (h : g.Later g') (hkept : g.Kept) : g.Ages g' := by
  induction h with
  | refl => exact Ages.refl g
  | move h move ih => exact ih.trans (ages_after (h.kept hkept) move)

/-- **Adding a unique payload again answers the same node**, whatever happened in between, unless
the node was deleted. -/
theorem add_unique_later (h : g.Kept) (hunique : payload.kind.isUnique = true)
    (hmember : g.member? id = some payload) (hlater : g.Later g')
    (hexists : ∀ node, g'.node? id = some node → node.state ≠ .deleted) :
    (add payload g').result = .ok id := by
  have hkept := hlater.kept h
  obtain ⟨node, hnode, hstate, rfl⟩ := member?_eq_some_iff.mp hmember
  obtain ⟨node', hnode', haged⟩ := hlater.ages h id node hnode
  have hsettled : node.state ≠ .detached := by simp [hstate]
  have hstate' : node'.state = .active := by
    have hdetached := haged.settled hsettled
    have hdeleted := hexists node' hnode'
    cases hs : node'.state with
    | active => rfl
    | detached => exact absurd hs hdetached
    | deleted => exact absurd hs hdeleted
  have hmember' : g'.member? id = some node.payload :=
    member?_eq_some_iff.mpr ⟨node', hnode', hstate', haged.payload hsettled hunique⟩
  rw [(add_unique hkept hunique).1, hkept.pooled?_eq_some_iff.mpr ⟨hmember', hunique⟩]
  rfl

/-! ## 4. Every reachable graph -/

/-- A list of moves leads from the empty graph to a reachable one. -/
theorem reachable_foldl (name : String) (moves : List Move) :
    (moves.foldl (fun g move => move.after g) (empty name)).Reachable := by
  induction moves using List.reverseRecOn with
  | nil => exact .empty name
  | append_singleton moves move ih =>
    rw [List.foldl_append]
    exact ih.move move

/-- **In every reachable graph edges, usages and marks agree.**  Every slot of an active node has
an active target of its family, or none if it may; a node has one usage for each edge an active
node has to it, and none if it is not active itself; and the marked nodes are the active ones.  So
the check of the edges never finds anything. -/
theorem Reachable.records_agree (h : g.Reachable) :
    (∀ id node, g.node? id = some node → node.state = .active → ∀ slot ∈ node.payload.slots,
      (slot.target = none → slot.optional = true) ∧
      ∀ target, slot.target = some target → ∃ found, g.node? target = some found ∧
        found.state = .active ∧ found.kind.isA slot.family = true) ∧
    (∀ id node, g.node? id = some node → ∀ user,
      node.usages.count user = if g.isActive user then (g.edges user).count id else 0) ∧
    (∀ id node, g.node? id = some node → node.state ≠ .active → node.usages = []) ∧
    (∀ id node, g.node? id = some node → (node.member = true ↔ node.state = .active)) ∧
    g.checkEdges = .empty := by
  have hkept := h.kept
  refine ⟨?_, ?_, fun id node => hkept.usages_eq_nil, fun id node => hkept.marked,
    checkEdges_of_kept hkept⟩
  · intro id node hnode hstate slot hslot
    have hfilled := hkept.filled (member?_eq_some_iff.mpr ⟨node, hnode, hstate, rfl⟩) slot hslot
    refine ⟨fun hnone => (fills_none hnone).mp hfilled, fun target htarget => ?_⟩
    obtain ⟨payload, hmember, hfamily⟩ := (fills_some htarget).mp hfilled
    obtain ⟨found, hfound, hactive, rfl⟩ := member?_eq_some_iff.mp hmember
    exact ⟨found, hfound, hactive, hfamily⟩
  · intro id node hnode user
    rw [hkept.counted hnode user, isActive_eq_isSome_member?]
    cases hmember : g.member? user with
    | none => simp [weight_of_not_member hmember]
    | some payload => simp [weight_of_member? hmember, edges_of_member? hmember]

/-- An edge that was attached is recorded, and a failed deletion of its target changes nothing. -/
theorem records_agree_truncation :
    let g := ([.create (.param "p" (.uint 8)), .create (.truncate ⟨0⟩ (.uint 4)), .attach ⟨1⟩,
      .delete ⟨0⟩] : List Move).foldl (fun g move => move.after g) (empty "f")
    g.usages ⟨0⟩ = [⟨1⟩] ∧ g.checkEdges = .empty :=
  ⟨by cbv, (reachable_foldl "f" _).records_agree.2.2.2.2⟩

/-- The node `id` is what a unique payload gets when it is added: the active node that has the
payload, or else a new one, and the same node whenever it is added again, at any later time at
which the node is not deleted. -/
structure Pooled (payload : Payload) (g : Graph) (id : NodeId) : Prop where
  answered : (add payload g).result = .ok id
  active : ∃ node, (add payload g).state.node? id = some node ∧ node.state = .active ∧
    node.payload = payload
  shared : ∀ other, g.isActive other = true → g.payload? other = some payload → id = other
  fresh : (∀ other, g.isActive other = true → g.payload? other ≠ some payload) →
    id = ⟨g.nodes.size⟩
  again : ∀ g', (add payload g).state.Later g' →
    (∀ node, g'.node? id = some node → node.state ≠ .deleted) → (add payload g').result = .ok id

/-- **In every reachable graph the pool is exact.**  It has one entry for each active node of a
unique kind, its payload and its identity, and no others; so no two such nodes have the same
payload, and the check of the unique nodes never finds anything.  Adding a unique payload answers
the active node that has it, or else makes a new one, and answers the same node at any later time
at which it is not deleted. -/
theorem Reachable.pool_exact (h : g.Reachable) :
    (∀ payload id, g.pool.get? payload = some id ↔ payload.kind.isUnique = true ∧
      ∃ node, g.node? id = some node ∧ node.state = .active ∧ node.payload = payload) ∧
    (∀ entry ∈ g.pool.entries, g.pool.get? entry.1 = some entry.2) ∧
    (∀ id id' node node', g.node? id = some node → g.node? id' = some node' →
      node.state = .active → node'.state = .active → node.kind.isUnique = true →
      node.payload = node'.payload → id = id') ∧
    g.checkUnique = .empty ∧
    ∀ payload, payload.kind.isUnique = true → ∃ id, Pooled payload g id := by
  have hkept := h.kept
  refine ⟨?_, ?_, ?_, checkUnique_of_kept hkept, ?_⟩
  · intro payload id
    rw [hkept.keys.get?_eq_some_iff, hkept.pooled, member?_eq_some_iff]
    exact and_comm
  · exact fun entry hentry => hkept.keys.get?_eq_some_iff.mpr hentry
  · intro id id' node node' hnode hnode' hstate hstate' hunique hsame
    exact hkept.unique_member (member?_eq_some_iff.mpr ⟨node, hnode, hstate, rfl⟩)
      (member?_eq_some_iff.mpr ⟨node', hnode', hstate', hsame.symm⟩) hunique
  · intro payload hunique
    obtain ⟨hresult, hmembers⟩ := add_unique hkept hunique
    have hmember := hmembers ((g.pooled? payload).getD ⟨g.nodes.size⟩)
    rw [if_pos rfl] at hmember
    refine ⟨_, hresult, member?_eq_some_iff.mp hmember, ?_, ?_, fun g' hlater hexists =>
      add_unique_later (add_preserves payload g hkept) hunique hmember hlater hexists⟩
    · intro other hactive hpayload
      obtain ⟨found, hfound⟩ := isActive_iff.mp hactive
      rw [payload?_of_member? hfound] at hpayload
      obtain rfl := Option.some.inj hpayload
      rw [hkept.pooled?_eq_some_iff.mpr ⟨hfound, hunique⟩]
      rfl
    · intro hnone
      cases hpooled : g.pooled? payload with
      | none => rfl
      | some member =>
        have hfound := (hkept.pooled?_eq_some_iff.mp hpooled).1
        exact absurd (payload?_of_member? hfound)
          (hnone member (isActive_iff.mpr ⟨payload, hfound⟩))

/-- A parameter that was deleted and added again has one entry, the new node's. -/
theorem pool_exact_parameter :
    let g := ([.add (.param "p" (.uint 8)), .delete ⟨0⟩, .add (.param "p" (.uint 8)),
      .add (.param "p" (.uint 8))] : List Move).foldl (fun g move => move.after g) (empty "f")
    g.pool.get? (.param "p" (.uint 8)) = some ⟨1⟩ ∧ g.checkUnique = .empty :=
  ⟨by cbv, (reachable_foldl "f" _).pool_exact.2.2.2.1⟩

end Graph

end BehaviorGraph
