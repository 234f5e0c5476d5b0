/-
# Edges without cycles

A member leads to what its input and successor slots point to.  No operation that leaves the slots
of the members alone can close a cycle of such edges, because a node becomes a member only after
everything it leads to, and nothing leads to it at that time (`Loopless.enroll`).

Replacing a node is the one operation among them that moves edges of members.  It asks first
whether the old node can be reached from the new one.  The search behind this question leaves
nothing out (`reaches_eq_true_iff`), so after the answer no the moved edges lead to a part of the
graph from which no moved edge can be reached, and **no cycle is closed** (`Loopless.redirect`).

Every history without rewiring therefore has a graph without cycles, whichever of its operations
fail and wherever they stop (`edges_loopless`).
-/
import BehaviorGraph.Proofs.Dataflow
import BehaviorGraph.Proofs.Histories

namespace BehaviorGraph

namespace Graph

variable {g g' : Graph} {id old new : NodeId} {payload : Payload}

/-! ## 1. Where members lead -/

/-- One member has an input or a successor edge to a node. -/
def LeadsTo (g : Graph) (user target : NodeId) : Prop :=
  ∃ payload, g.member? user = some payload ∧ target ∈ payload.edges

/-- **No member leads back to itself**, at whatever distance. -/
def Loopless (g : Graph) : Prop := ∀ id, ¬ Relation.TransGen g.LeadsTo id id

/-- A graph that has no more members than another has no more cycles. -/
theorem Loopless.of_members (h : g.Loopless)
    (hmembers : ∀ {id payload}, g'.member? id = some payload → g.member? id = some payload) :
    g'.Loopless := by
  intro id hcycle
  refine h id (Relation.TransGen.mono ?_ _ _ hcycle)
  rintro user target ⟨payload, hmember, hedge⟩
  exact ⟨payload, hmembers hmember, hedge⟩

theorem loopless_empty (name : String) : (empty name).Loopless := by
  intro id hcycle
  obtain ⟨next, ⟨payload, hmember, -⟩, -⟩ := Relation.TransGen.head'_iff.mp hcycle
  exact absurd hmember (by simp [member?, node?, empty])

/-! ## 2. New members -/

/-- **A node that becomes a member closes no cycle**: it leads to members, and no member leads to
it. -/
theorem Loopless.enroll (h : g.Loopless) (hkept : g.Kept) (hnone : g.member? id = none)
    (hslots : ∀ slot ∈ payload.slots, g.Fills slot)
    (hmembers : ∀ other, g'.member? other = if other = id then some payload else g.member? other) :
    g'.Loopless := by
  have htarget : ∀ {user target}, g'.LeadsTo user target → target ≠ id := by
    rintro user target ⟨found, hfound, hedge⟩ rfl
    rw [hmembers] at hfound
    have hmember : ∃ payload', g.member? target = some payload' := by
      by_cases huser : user = target
      · rw [if_pos huser] at hfound
        obtain rfl := Option.some.inj hfound
        obtain ⟨slot, hslot, hset⟩ := Payload.mem_edges_iff.mp hedge
        obtain ⟨payload', hmember, -⟩ := (fills_some hset).mp (hslots slot hslot)
        exact ⟨payload', hmember⟩
      · rw [if_neg huser] at hfound
        exact hkept.member?_of_mem_edges hfound hedge
    obtain ⟨payload', hmember⟩ := hmember
    exact absurd (hnone.symm.trans hmember) (by simp)
  have hstep : ∀ {user target}, user ≠ id → g'.LeadsTo user target → g.LeadsTo user target := by
    rintro user target huser ⟨found, hfound, hedge⟩
    rw [hmembers, if_neg huser] at hfound
    exact ⟨found, hfound, hedge⟩
  have hpath : ∀ {user target}, user ≠ id → Relation.TransGen g'.LeadsTo user target →
      Relation.TransGen g.LeadsTo user target ∧ target ≠ id := by
    intro user target huser hpath
    induction hpath with
    | single hleads => exact ⟨.single (hstep huser hleads), htarget hleads⟩
    | tail _ hleads ih => exact ⟨ih.1.tail (hstep ih.2 hleads), htarget hleads⟩
  intro other hcycle
  obtain ⟨last, -, hlast⟩ := Relation.TransGen.tail'_iff.mp hcycle
  exact h other (hpath (htarget hlast) hcycle).1

/-- **Attaching closes no cycle**, wherever the walk stops. -/
theorem attachResolving_loopless (hkept : g.Kept) (h : g.Loopless) (id : NodeId) :
    (attachResolving id g).state.Loopless := by
  have hwalk := Attachment.walk_induct
    (P := fun tasks a => Attachment.Walking g tasks a ∧ a.graph.Loopless) ?_ ?_ ?_ ?_ g.nodes.size
    [.enter id] ⟨g, [], Table.empty⟩ ⟨walking_start hkept id, h⟩
  · obtain ⟨-, ⟨-, hloopless⟩, -⟩ := hwalk
    unfold attachResolving
    cases hresult : Attachment.walk g.nodes.size [.enter id] ⟨g, [], Table.empty⟩ with
    | mk result a reports =>
      rw [hresult] at hloopless
      cases result <;> exact hloopless
  · rintro id rest a ⟨hwalking, hloopless⟩ hstep
    exact ⟨(hwalking.skip hstep).1, hloopless⟩
  · rintro id rest a payload ⟨hwalking, hloopless⟩ hstep
    exact ⟨hwalking.enter hstep, hloopless⟩
  · rintro id rest a a' reports ⟨hwalking, hloopless⟩ hstep
    obtain ⟨a'', reports', hleave, hnext, -⟩ := hwalking.leave
    rw [hstep] at hleave
    obtain ⟨-, rfl, -⟩ := Outcome.mk.inj hleave
    refine ⟨hnext, ?_⟩
    obtain ⟨⟨node, hnode, hstate, hslots⟩, -⟩ := hwalking.planned
    have hinactive : node.state ≠ .active := by simp [hstate]
    obtain ⟨left, hleft, hcases⟩ := Attachment.leave_cases hstep
    obtain rfl := Option.some.inj (hnode.symm.trans hleft)
    rcases hcases with ⟨member, -, rfl⟩ | ⟨-, rfl⟩
    · exact hloopless.of_members fun hmember =>
        Attachment.member?_discard hnode hinactive _ ▸ hmember
    · exact hloopless.enroll hwalking.kept (member?_eq_none_of_node? hnode hinactive)
        (hwalking.fills hslots) (Attachment.member?_enroll hnode)
  · rintro id rest a a' fault reports ⟨hwalking, -⟩ hstep
    exact absurd hstep hwalking.leave_ne_error

theorem attach_loopless (hkept : g.Kept) (h : g.Loopless) (id : NodeId) :
    (attach id g).state.Loopless := by
  rw [attach_eq]
  exact attachResolving_loopless hkept h id

/-! ## 3. Moved edges -/

/-- The targets of all edges in the arena. -/
def targets (g : Graph) : List NodeId := g.nodes.toList.flatMap fun node => node.payload.edges

theorem mem_targets {user target : NodeId} (h : target ∈ g.edges user) : target ∈ g.targets := by
  unfold edges payload? node? at h
  refine List.mem_flatMap.mpr ?_
  cases hnode : g.nodes[user.index]? with
  | none => simp [hnode] at h
  | some node =>
    refine ⟨node, Array.mem_toList_iff.mpr (Array.mem_of_getElem? hnode), ?_⟩
    simpa [hnode] using h

/-- **The question whether a node can be reached is answered exactly.** -/
theorem reaches_eq_true_iff {source goal : NodeId} :
    g.reaches source goal = true
      ↔ Relation.ReflTransGen (fun a b => b ∈ g.edges a) source goal := by
  -- Everything a search can meet is its source or the target of an edge in the arena.
  have hsight : ∀ v, ∀ w ∈ g.edges v, w ∈ source :: g.targets := fun v w hw =>
    List.mem_cons_of_mem _ (mem_targets hw)
  have hbound : (source :: g.targets).length ≤ 1 + g.edgeCount := by
    rw [List.length_cons, edgeCount, targets]
    omega
  rw [reaches, List.contains_iff_mem]
  exact mem_search_iff (source :: g.targets) hsight (by simp) hbound

/-- **Edges that move to a node from which the old target cannot be reached close no cycle.** -/
theorem Loopless.redirect (h : g.Loopless) (hkept : g.Kept) (hold : g.member? old = some payload)
    (hreach : g.reaches new old = false) : (g.redirect old new).Loopless := by
  have hapart : ∀ {id}, Relation.ReflTransGen g.LeadsTo new id → id ≠ old := by
    rintro id hpath rfl
    refine Bool.eq_false_iff.mp hreach
      (reaches_eq_true_iff.mpr (Relation.ReflTransGen.mono ?_ _ _ hpath))
    rintro user target ⟨found, hfound, hedge⟩
    rwa [edges_of_member? hfound]
  have hne : new ≠ old := hapart .refl
  obtain ⟨node, hnode, -, -⟩ := member?_eq_some_iff.mp hold
  -- An edge afterwards is one that did not move, or one that did and leads to the new node.
  have hstep : ∀ {user target}, (g.redirect old new).LeadsTo user target →
      g.LeadsTo user target ∨ (g.LeadsTo user old ∧ target = new) := by
    rintro user target ⟨found, hfound, hedge⟩
    rw [member?_redirect hkept hne hnode] at hfound
    obtain ⟨before, hbefore, rfl⟩ := Option.map_eq_some_iff.mp hfound
    rw [Payload.edges_mapEdges] at hedge
    obtain ⟨source, hsource, rfl⟩ := List.mem_map.mp hedge
    by_cases heq : source = old
    · subst heq
      exact Or.inr ⟨⟨before, hbefore, hsource⟩, swap_self _ _⟩
    · rw [swap_of_ne heq]
      exact Or.inl ⟨before, hbefore, hsource⟩
  -- Behind the new node no edge moved.
  have hbehind : ∀ {id}, Relation.ReflTransGen (g.redirect old new).LeadsTo new id →
      Relation.ReflTransGen g.LeadsTo new id := by
    intro id hpath
    induction hpath with
    | refl => exact .refl
    | tail _ hleads ih =>
      rcases hstep hleads with hleads | ⟨hmoved, -⟩
      · exact ih.tail hleads
      · exact absurd rfl (hapart (ih.tail hmoved))
  have hpath : ∀ {user target}, Relation.TransGen (g.redirect old new).LeadsTo user target →
      Relation.TransGen g.LeadsTo user target ∨
        (Relation.TransGen g.LeadsTo user old ∧
          Relation.ReflTransGen (g.redirect old new).LeadsTo new target) := by
    intro user target hpath
    induction hpath with
    | single hleads =>
      rcases hstep hleads with hleads | ⟨hmoved, rfl⟩
      · exact Or.inl (.single hleads)
      · exact Or.inr ⟨.single hmoved, .refl⟩
    | tail _ hleads ih =>
      rcases ih with hbefore | ⟨hmoved, hafter⟩
      · rcases hstep hleads with hleads | ⟨hmoved, rfl⟩
        · exact Or.inl (hbefore.tail hleads)
        · exact Or.inr ⟨hbefore.tail hmoved, .refl⟩
      · exact Or.inr ⟨hmoved, hafter.tail hleads⟩
  intro id hcycle
  rcases hpath hcycle with hcycle | ⟨hmoved, hafter⟩
  · exact h id hcycle
  · exact hapart ((hbehind hafter).trans hmoved.to_reflTransGen) rfl

/-- Deleting makes no members. -/
theorem member?_of_delete {other : NodeId}
    (hmember : (delete id g).state.member? other = some payload) :
    g.member? other = some payload := by
  cases hnode : g.node? id with
  | none => simpa [delete, hnode] using hmember
  | some node =>
    by_cases hnil : node.usages = []
    · cases hstate : node.state with
      | active =>
        rw [(delete_eq_withdraw hnode hstate hnil).2, member?_withdraw] at hmember
        exact (Option.ite_none_left_eq_some.mp hmember).2
      | deleted => simpa [delete, hnode, Node.isDeleted, hstate] using hmember
      | detached =>
        by_cases hother : other = id
        · subst hother
          simp [delete, hnode, Node.isDeleted, Node.isActive, hstate, hnil, member?] at hmember
        · simpa [delete, hnode, Node.isDeleted, Node.isActive, hstate, hnil, member?,
            node?_modify_of_ne _ _ _ hother] using hmember
    · have hsame : (delete id g).state = g := by
        cases hdeleted : node.isDeleted <;> simp [delete, hnode, hdeleted, hnil]
      rwa [hsame] at hmember

/-- **Replacing closes no cycle**, whether it moves edges or fails. -/
theorem replace_loopless (hkept : g.Kept) (h : g.Loopless) (old new : NodeId) :
    (replace old new g).state.Loopless := by
  have hattached := attach_loopless hkept h new
  have hends : (replace old new).Ends g fun _ g' => g'.Loopless := by
    refine (replace_ends hkept old new).imp fun r g' hreplaced => ?_
    cases hreplaced with
    | inactive => exact h
    | unattached => exact hattached
    | same => exact hattached
    | reached => exact hattached
    | misfit => exact hattached
    | moved hold hnew hne hreach =>
      have hold' := (attach_grown hkept new).member? hold
      refine (hattached.redirect (attach_kept hkept new) hold' hreach).of_members fun hmember => ?_
      rw [member?_withdraw] at hmember
      exact (Option.ite_none_left_eq_some.mp hmember).2
  exact hends

/-! ## 4. Histories without rewiring -/

/-- Closing up renames the members and keeps their edges. -/
theorem Loopless.compact (h : g.Loopless) (hkept : g.Kept) : g.compact.Loopless := by
  have hstep : ∀ {user target}, g.compact.LeadsTo user target → ∃ user' target',
      g.members[user.index]? = some user' ∧ g.members[target.index]? = some target' ∧
        g.LeadsTo user' target' := by
    rintro user target ⟨payload, hmember, hedge⟩
    rw [(recorded_compact hkept).members] at hmember
    obtain ⟨user', before, hplace, hbefore, rfl⟩ := member?_gathered_eq_some hkept hmember
    rw [Payload.edges_mapEdges] at hedge
    obtain ⟨target', htarget, rfl⟩ := List.mem_map.mp hedge
    obtain ⟨found, hfound⟩ := hkept.member?_of_mem_edges hbefore htarget
    exact ⟨user', target', hplace, (getElem?_members_seat hfound).1, before, hbefore, htarget⟩
  have hpath : ∀ {user target}, Relation.TransGen g.compact.LeadsTo user target → ∃ user' target',
      g.members[user.index]? = some user' ∧ g.members[target.index]? = some target' ∧
        Relation.TransGen g.LeadsTo user' target' := by
    intro user target hpath
    induction hpath with
    | single hleads =>
      obtain ⟨user', target', huser, htarget, hleads'⟩ := hstep hleads
      exact ⟨user', target', huser, htarget, .single hleads'⟩
    | tail _ hleads ih =>
      obtain ⟨user', mid, huser, hmid, hbefore⟩ := ih
      obtain ⟨mid', target', hmid', htarget, hleads'⟩ := hstep hleads
      rw [hmid] at hmid'
      obtain rfl := Option.some.inj hmid'
      exact ⟨user', target', huser, htarget, hbefore.tail hleads'⟩
  intro id hcycle
  obtain ⟨user', target', huser, htarget, hcycle'⟩ := hpath hcycle
  rw [huser] at htarget
  obtain rfl := Option.some.inj htarget
  exact h user' hcycle'

end Graph

/-- Operations that give no slot of a member a target of the caller's choice. -/
def Move.WithoutRewiring : Move → Prop
  | .redirectInputs _ _ => False
  | .redirectSuccessors _ _ => False
  | .replaceInput _ _ _ => False
  | _ => True

namespace Graph

variable {g : Graph}

theorem Loopless.push (h : g.Loopless) (payload : Payload) : (g.push payload).Loopless :=
  h.of_members fun hmember => member?_push payload ▸ hmember

/-- The payload of a member cannot be overwritten. -/
theorem member?_of_setPayload {id other : NodeId} {payload found : Payload}
    (hmember : (setPayload id payload g).state.member? other = some found) :
    g.member? other = some found := by
  unfold setPayload at hmember
  cases hnode : g.node? id with
  | none => simpa [hnode] using hmember
  | some node =>
    cases hstate : node.state with
    | active => simpa [hnode, hstate] using hmember
    | deleted => simpa [hnode, hstate] using hmember
    | detached =>
      by_cases hother : other = id
      · subst hother
        simp [hnode, hstate, member?, Node.isActive] at hmember
      · simpa [hnode, hstate, member?, node?_modify_of_ne _ _ _ hother] using hmember

/-- **No operation without rewiring closes a cycle.** -/
theorem Loopless.after (h : g.Loopless) (hkept : g.Kept) {move : Move}
    (hmove : move.WithoutRewiring) : (move.after g).Loopless := by
  have hpush : ∀ g payload, Kept g ∧ g.Loopless → (g.push payload).Kept ∧
      (g.push payload).Loopless :=
    fun g payload hg => ⟨hg.1.push payload, hg.2.push payload⟩
  cases move with
  | create payload => exact h.push payload
  | setPayload id payload => exact h.of_members member?_of_setPayload
  | add payload => exact attach_loopless (hkept.push payload) (h.push payload) ⟨g.nodes.size⟩
  | attach id => exact attach_loopless hkept h id
  | delete id => exact h.of_members member?_of_delete
  | replace old new => exact replace_loopless hkept h old new
  | redirectInputs owner f => exact hmove.elim
  | redirectSuccessors owner f => exact hmove.elim
  | replaceInput owner old new => exact hmove.elim
  | copy id => exact (copy_pushes hpush id ⟨hkept, h⟩).2
  | shallowCopy id => exact (shallowCopy_pushes hpush id ⟨hkept, h⟩).2
  | receive source copies root =>
    refine (copyInto_pushes hpush ?_ source root ⟨g, copies⟩ ⟨hkept, h⟩).2
    intro g id hg
    exact ⟨attachResolving_kept hg.1 id, attachResolving_loopless hg.1 hg.2 id⟩
  | setOwner owner => exact h.of_members fun hmember => hmember

/-- **Graphs that some history without rewiring leads to.** -/
inductive Unrewired : Graph → Prop where
  | empty (name : String) : Unrewired (empty name)
  | move {g : Graph} (h : Unrewired g) {move : Move} (hmove : move.WithoutRewiring) :
    Unrewired (move.after g)
  | compact {g : Graph} (h : Unrewired g) : Unrewired g.compact

theorem Unrewired.reachable (h : g.Unrewired) : g.Reachable := by
  induction h with
  | empty name => exact .empty name
  | move h hmove ih => exact ih.move _
  | compact h ih => exact ih.compact

theorem Unrewired.loopless (h : g.Unrewired) : g.Loopless := by
  induction h with
  | empty name => exact loopless_empty name
  | move h hmove ih => exact ih.after h.reachable.kept hmove
  | compact h ih => exact ih.compact h.reachable.kept

/-- A list of moves without rewiring leads from the empty graph to such a graph. -/
theorem unrewired_foldl (name : String) {moves : List Move}
    (h : ∀ move ∈ moves, move.WithoutRewiring) :
    (moves.foldl (fun g move => move.after g) (empty name)).Unrewired := by
  induction moves using List.reverseRecOn with
  | nil => exact .empty name
  | append_singleton moves move ih =>
    rw [List.foldl_append]
    exact (ih fun other hother => h other (List.mem_append_left _ hother)).move (h move (by simp))

/-- **Edges between members have no cycles.**  This holds of every graph that a history without
rewiring leads to, whichever of its operations fail.  From any reachable graph without cycles, one
with rewiring in its past included, every such operation and every copy of the whole leads to a
graph without cycles.  And the question asked before a replacement is the right one: where the old
member cannot be reached from the new node, handing all edges to the old one over closes no cycle.
-/
theorem edges_loopless :
    (∀ g, Unrewired g → g.Loopless) ∧
    (∀ g, Reachable g → g.Loopless →
      (∀ move : Move, move.WithoutRewiring → (move.after g).Loopless) ∧ g.compact.Loopless) ∧
    ∀ g old new, Reachable g → g.Loopless → g.isActive old = true → g.reaches new old = false →
      (g.redirect old new).Loopless := by
  refine ⟨fun g h => h.loopless, fun g h hloopless => ⟨fun move hmove => ?_, ?_⟩, ?_⟩
  · exact hloopless.after h.kept hmove
  · exact hloopless.compact h.kept
  · intro g old new h hloopless hactive hreach
    obtain ⟨payload, hold⟩ := isActive_iff.mp hactive
    exact hloopless.redirect h.kept hold hreach

/-- A parameter is replaced by another one; what reads it cannot replace it. -/
theorem edges_loopless_replacement :
    let g := ([.add (.param "p" (.uint 8)), .add (.param "q" (.uint 8)),
      .add (.truncate ⟨0⟩ (.uint 4)), .replace ⟨0⟩ ⟨1⟩] : List Move).foldl
        (fun g move => move.after g) (empty "f")
    g.edges ⟨2⟩ = [⟨1⟩] ∧
    (replace ⟨1⟩ ⟨2⟩ g).result = .error (.selfReplacement ⟨1⟩ ⟨2⟩) ∧ g.Loopless :=
  ⟨by cbv, by cbv, edges_loopless.1 _ (unrewired_foldl "f" (by simp [Move.WithoutRewiring]))⟩

end Graph

end BehaviorGraph
