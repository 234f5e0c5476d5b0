/-
# Grafting loose values

Loose values at the end of an arena are attached by one walk from the last of them.  A loose value
becomes a member itself, unless it is unique and a member has its payload already; then that member
stands for it.  `Grafting` says how far a walk has got: **the member that stands for a loose value
has its payload, read through who stands for whom**, and nothing else has changed.

Each loose value reads values in front of it, so the walk meets no fault (`walk_grafts`): the
argument is an induction on the place in the arena.  A walk is a loop over a list of tasks with a
bound on its turns, so two more things have to be said of every stretch of it (`Grafts`).

* It comes back to the tasks it was interrupted for: what was entered before the stretch is entered
  after it, and is not left in between.
* The bound lasts: it is spent on entering nodes, each is entered once, and `remaining` counts
  those that are left.

The graph that comes out has ranks again, in which the loose values stand right below a level of
choice (`Grafting.ranked`).  The level chosen later is that of the call that a copied body takes
the place of, so that what comes to stand for the result may replace the call without closing a
cycle (`Grafting.rank_representative_le`).
-/
import BehaviorGraph.Proofs.Exchanging
import BehaviorGraph.Proofs.Transcribing

namespace BehaviorGraph

namespace Graph

variable {g g' : Graph} {table : Table NodeId NodeId} {id target : NodeId} {payload : Payload}
  {node : Node} {rank : NodeId → Nat}

namespace Attachment

variable {a a' a'' : Attachment} {bound bound' bound'' : Nat} {rest : List (Task NodeId)}
  {rep : NodeId}

/-! ## 1. How far a walk has got -/

/-- Somebody stands for the node: it is given, or was left. -/
def Stands (table : Table NodeId NodeId) (a : Attachment) (id : NodeId) : Prop :=
  Given table id ∨ ∃ rep, a.resolved.get? id = some rep

/-- Nobody stands for a node that was not left. -/
theorem get?_resolved_of_not_stands (h : ¬ a.Stands table id) : a.resolved.get? id = none := by
  cases hrep : a.resolved.get? id with
  | none => rfl
  | some rep => exact absurd (Or.inr ⟨rep, hrep⟩) h

/-- What an entry of the table of those left means for the representative, and what it means that
there is none. -/
theorem representative_of_resolved (h : a.resolved.get? id = some rep) :
    a.representative id = rep := by
  rw [representative, h, Option.getD_some]

theorem representative_of_none (h : a.resolved.get? id = none) : a.representative id = id := by
  rw [representative, h, Option.getD_none]

/-- Leaving another node changes nobody who stands for a node. -/
theorem Stands.insert (hstands : a.Stands table target) (hloose : Loose g table g')
    (hresolved : a'.resolved = a.resolved.insert id rep) (hindex : g.nodes.size ≤ id.index)
    (hnone : a.resolved.get? id = none) :
    a'.representative target = a.representative target ∧ a'.Stands table target := by
  -- A given node is a member of before and so in front of all loose ones; a loose one that was
  -- left has an entry, and `id` has none yet.
  have hne : target ≠ id := by
    rintro rfl
    rcases hstands with hgiven | ⟨rep, hrep⟩
    · obtain ⟨payload, hmember, -⟩ := hloose.given hgiven
      have hlt := index_lt_size hmember
      omega
    · rw [hnone] at hrep
      exact absurd hrep (by simp)
  refine ⟨by rw [representative_of_insert hresolved, if_neg hne], hstands.imp_right ?_⟩
  rintro ⟨rep', hrep'⟩
  exact ⟨rep', by rw [hresolved, Table.get?_insert_of_ne _ _ hne, hrep']⟩

/-- **The member that stands for a loose value has its payload, read through who stands for whom.**
-/
structure Grafting (g : Graph) (table : Table NodeId NodeId) (g' : Graph) (a : Attachment) :
    Prop where
  kept : a.graph.Kept
  framed : g.Framed a.graph
  size : a.graph.nodes.size = g'.nodes.size
  old : ∀ {id node}, g.node? id = some node → ∃ node', a.graph.node? id = some node' ∧
    node'.state = node.state ∧ node'.payload = node.payload
  /-- What was not left is still loose. -/
  loose : ∀ {id node}, g.nodes.size ≤ id.index → g'.node? id = some node →
    a.resolved.get? id = none → ∃ node', a.graph.node? id = some node' ∧ node'.state = .detached ∧
      node'.payload = node.payload
  resolved : ∀ {id rep}, a.resolved.get? id = some rep → g.nodes.size ≤ id.index ∧
    ∃ payload, g'.payload? id = some payload ∧
      a.graph.member? rep = some (payload.mapEdges a.representative) ∧
      (∀ target ∈ payload.inputEdges, a.Stands table target) ∧
      (rep = id ∨ payload.kind.isUnique = true)
  members : ∀ {id payload}, a.graph.member? id = some payload →
    g.member? id = some payload ∨ a.resolved.get? id = some id

/-- Before the walk begins nothing was left, and the loose values are as they were put there. -/
theorem grafting_start (h : Loose g table g') : Grafting g table g' ⟨g', [], Table.empty⟩ := by
  refine ⟨h.kept, h.framed, rfl, ?_, ?_, fun hrep => absurd hrep (by simp [Table.get?_empty]), ?_⟩
  · intro id node hnode
    exact ⟨node, by rw [← hnode]; exact h.old (lt_size_of_node? hnode), rfl, rfl⟩
  · intro id node hindex hnode _
    exact ⟨node, hnode, (h.new hindex hnode).1, rfl⟩
  · intro id payload hmember
    obtain ⟨node, hnode, hstate, rfl⟩ := member?_eq_some_iff.mp hmember
    by_cases hindex : id.index < g.nodes.size
    · rw [h.old hindex] at hnode
      exact Or.inl (member?_eq_some_iff.mpr ⟨node, hnode, hstate, rfl⟩)
    · rw [(h.new (Nat.not_lt.mp hindex) hnode).1] at hstate
      exact absurd hstate (by simp)

namespace Grafting

/-- Members stay what they are. -/
theorem member? (h : Grafting g table g' a) (hmember : g.member? id = some payload) :
    a.graph.member? id = some payload := by
  obtain ⟨node, hnode, hstate, rfl⟩ := member?_eq_some_iff.mp hmember
  obtain ⟨node', hnode', hstate', hpayload'⟩ := h.old hnode
  exact member?_eq_some_iff.mpr ⟨node', hnode', hstate'.trans hstate, hpayload'⟩

/-- A member stands for itself. -/
theorem resolved_of_member (h : Grafting g table g' a) (hmember : g.member? id = some payload) :
    a.resolved.get? id = none := by
  -- Only loose nodes are left, and they stand behind the members of before.
  cases hrep : a.resolved.get? id with
  | none => rfl
  | some rep =>
    obtain ⟨node, hnode, -, -⟩ := member?_eq_some_iff.mp hmember
    have hlt := lt_size_of_node? hnode
    have hindex := (h.resolved hrep).1
    omega

/-- Who stands for a value is a value that is a member. -/
theorem offers (h : Grafting g table g' a) (hloose : Loose g table g')
    (hstands : a.Stands table id) :
    a.graph.Offers (a.representative id) .value := by
  rcases hstands with hgiven | ⟨rep, hrep⟩
  · obtain ⟨payload, hmember, hvalue⟩ := hloose.given hgiven
    rw [representative_of_none (h.resolved_of_member hmember)]
    exact ⟨payload, h.member? hmember, hvalue⟩
  · obtain ⟨hindex, payload, hpayload, hmember, -⟩ := h.resolved hrep
    obtain ⟨node, hnode, rfl⟩ := Option.map_eq_some_iff.mp hpayload
    rw [representative_of_resolved hrep]
    exact ⟨_, hmember, by rw [Payload.kind_mapEdges]; exact (hloose.new hindex hnode).2.1⟩

/-! ## 2. Leaving a loose value -/

/-- What is common to the two ways of leaving a loose value: a member stands for it afterwards, and
the other nodes are not touched. -/
theorem settle (h : Grafting g table g' a) (hloose : Loose g table g')
    (hnode : g'.node? id = some node) (hindex : g.nodes.size ≤ id.index)
    (hnone : a.resolved.get? id = none)
    (hreads : ∀ target ∈ node.payload.inputEdges, a.Stands table target) (hkept : a'.graph.Kept)
    (hframed : a.graph.Framed a'.graph) (hsize : a'.graph.nodes.size = a.graph.nodes.size)
    (hresolved : a'.resolved = a.resolved.insert id rep)
    (hothers : ∀ {other node}, other ≠ id → a.graph.node? other = some node →
      ∃ node', a'.graph.node? other = some node' ∧ node'.state = node.state ∧
        node'.payload = node.payload)
    (hrep : a'.graph.member? rep = some (node.payload.mapEdges a.representative))
    (hunique : rep = id ∨ node.payload.kind.isUnique = true)
    (hmembers : ∀ {other payload}, a'.graph.member? other = some payload →
      a.graph.member? other = some payload ∨ (other = id ∧ rep = id)) : Grafting g table g' a' := by
  have hvalue := (hloose.new hindex hnode).2.1
  have hgone : a.graph.member? id = none := by
    obtain ⟨node', hnode', hstate', -⟩ := h.loose hindex hnode hnone
    exact member?_eq_none_of_node? hnode' (by simp [hstate'])
  -- What earlier values read keeps its representative, so their payloads read through it stay as
  -- well.
  have hstays : ∀ {payload : Payload}, payload.kind.isA .value = true →
      (∀ target ∈ payload.inputEdges, a.Stands table target) →
        payload.mapEdges a'.representative = payload.mapEdges a.representative := by
    intro payload hvalue hreads
    refine Payload.mapEdges_congr fun target htarget => ?_
    rw [Payload.edges_of_isValue hvalue] at htarget
    exact ((hreads target htarget).insert hloose hresolved hindex hnone).1
  have hstands : ∀ {payload : Payload}, (∀ target ∈ payload.inputEdges, a.Stands table target) →
      ∀ target ∈ payload.inputEdges, a'.Stands table target := fun hreads target htarget =>
    ((hreads target htarget).insert hloose hresolved hindex hnone).2
  -- The fields in order: the old nodes, the loose ones, those that somebody stands for, and the
  -- members.
  refine ⟨hkept, h.framed.trans hframed, hsize.trans h.size, ?_, ?_, ?_, ?_⟩
  · intro other before hbefore
    obtain ⟨between, hbetween, hstate, hpayload⟩ := h.old hbefore
    have hlt := lt_size_of_node? hbefore
    obtain ⟨after, hafter, hstate', hpayload'⟩ := hothers (by rintro rfl; omega) hbetween
    exact ⟨after, hafter, hstate'.trans hstate, hpayload'.trans hpayload⟩
  · intro other before hother hbefore hfree
    have hne : other ≠ id := by
      rintro rfl
      rw [hresolved, Table.get?_insert_self] at hfree
      exact absurd hfree (by simp)
    rw [hresolved, Table.get?_insert_of_ne _ _ hne] at hfree
    obtain ⟨between, hbetween, hstate, hpayload⟩ := h.loose hother hbefore hfree
    obtain ⟨after, hafter, hstate', hpayload'⟩ := hothers hne hbetween
    exact ⟨after, hafter, hstate'.trans hstate, hpayload'.trans hpayload⟩
  · intro other rep' hrep'
    -- The node left now has the member of `hrep`; for any other node the member of before is still
    -- there, and it is not `id`, which was no member.
    by_cases hne : other = id
    · subst hne
      rw [hresolved, Table.get?_insert_self] at hrep'
      obtain rfl := Option.some.inj hrep'
      refine ⟨hindex, node.payload, by rw [payload?, hnode]; rfl, ?_, hstands hreads, hunique⟩
      rw [hstays hvalue hreads]
      exact hrep
    · rw [hresolved, Table.get?_insert_of_ne _ _ hne] at hrep'
      obtain ⟨hother, payload, hpayload, hmember, hreads', hunique'⟩ := h.resolved hrep'
      obtain ⟨before, hbefore, rfl⟩ := Option.map_eq_some_iff.mp hpayload
      refine ⟨hother, before.payload, hpayload, ?_, hstands hreads', hunique'⟩
      rw [hstays (hloose.new hother hbefore).2.1 hreads']
      obtain ⟨between, hbetween, hstate, hsame⟩ := member?_eq_some_iff.mp hmember
      have hne' : rep' ≠ id := by
        rintro rfl
        rw [hgone] at hmember
        exact absurd hmember (by simp)
      obtain ⟨after, hafter, hstate', hpayload'⟩ := hothers hne' hbetween
      exact member?_eq_some_iff.mpr ⟨after, hafter, hstate'.trans hstate, hpayload'.trans hsame⟩
  · intro other payload hmember
    rcases hmembers hmember with hbefore | ⟨rfl, rfl⟩
    · rcases h.members hbefore with hold | hself
      · exact Or.inl hold
      · refine Or.inr ?_
        rw [hresolved, Table.get?_insert_of_ne _ _ ?_, hself]
        rintro rfl
        rw [hnone] at hself
        exact absurd hself (by simp)
    · exact Or.inr (by rw [hresolved, Table.get?_insert_self])

/-- **A loose value can be left as soon as somebody stands for everything it reads.** -/
theorem leave (h : Grafting g table g' a) (hloose : Loose g table g')
    (hnode : g'.node? id = some node) (hindex : g.nodes.size ≤ id.index)
    (hnone : a.resolved.get? id = none)
    (hreads : ∀ target ∈ node.payload.inputEdges, a.Stands table target) :
    ∃ a' rep reports, a.leave id = ⟨.ok (), a', reports⟩ ∧ Grafting g table g' a' ∧
      a'.resolved = a.resolved.insert id rep ∧ a'.entered = a.entered.erase id := by
  obtain ⟨between, hbetween, hstate, hpayload⟩ := h.loose hindex hnode hnone
  have hinactive : between.state ≠ .active := by simp [hstate]
  have hvalue := (hloose.new hindex hnode).2.1
  have hvalue' : (node.payload.mapEdges a.representative).kind.isA .value = true := by
    rwa [Payload.kind_mapEdges]
  have hoffers : ∀ target ∈ (node.payload.mapEdges a.representative).inputEdges,
      a.graph.Offers target .value := by
    intro target htarget
    rw [Payload.inputEdges_mapEdges] at htarget
    obtain ⟨before, hbefore, rfl⟩ := List.mem_map.mp htarget
    exact h.offers hloose (hreads before hbefore)
  unfold Attachment.leave
  rw [payload?, hbetween, Option.map_some, hpayload]
  simp only
  -- A member with the same payload stands for the node, which is given up; without one the node
  -- becomes a member.
  cases htwin : a.twin? (node.payload.mapEdges a.representative) with
  | some member =>
    obtain ⟨hmember, hunique⟩ := (twin?_eq_some_iff h.kept).mp htwin
    have hsame := member?_discard hbetween hinactive member
    refine ⟨_, member, _, rfl, h.settle hloose hnode hindex hnone hreads
      (kept_discard h.kept hbetween hinactive member) (framed_discard hbetween hinactive member)
      (by simp [discard]) rfl ?_ ?_ ?_ ?_, rfl, rfl⟩
    · intro other before hne hbefore
      -- Giving up `id` touches no other node.
      exact ⟨before, by simp only [discard, node?_modify_of_ne _ _ _ hne, hbefore], rfl, rfl⟩
    · rw [hsame, hmember]
    · rw [Payload.kind_mapEdges] at hunique
      exact Or.inr hunique
    · intro other payload hother
      rw [hsame] at hother
      exact Or.inl hother
  | none =>
    -- Making `id` a member adds usages to other nodes, but changes neither state nor payload of
    -- any.
    have hmembers :
      ∀ other, (a.enroll id (node.payload.mapEdges a.representative)).graph.member? other
        = if other = id then some (node.payload.mapEdges a.representative)
          else a.graph.member? other :=
      member?_enroll hbetween
    refine ⟨_, id, _, rfl, h.settle hloose hnode hindex hnone hreads
      (kept_enroll h.kept hbetween hinactive (fills_of_values hvalue' hoffers)
        (member?_ne_of_twin? h.kept htwin))
      (framed_enroll hbetween hinactive hvalue' (by rwa [Payload.edges_of_isValue hvalue'])) ?_ rfl
      ?_ ?_ (Or.inl rfl) ?_, rfl, rfl⟩
    · simp only [enroll, size_addUsages]
      split <;> simp
    · intro other before hne hbefore
      refine ⟨_, by rw [node?_enroll, hbefore]; rfl, ?_, ?_⟩ <;> simp [hne]
    · rw [hmembers, if_pos rfl]
    · intro other payload hother
      rw [hmembers] at hother
      split at hother
      · rename_i heq
        exact Or.inr ⟨heq, rfl⟩
      · exact Or.inl hother

/-! ## 3. Entering a loose value -/

/-- **A loose value that was not entered yet can be**: whatever it reads is a value and not
deleted. -/
theorem enter (h : Grafting g table g' a) (hloose : Loose g table g')
    (hnode : g'.node? id = some node) (hindex : g.nodes.size ≤ id.index)
    (hnone : a.resolved.get? id = none) (hfresh : id ∉ a.entered) :
    a.enter id = .ok (some node.payload) := by
  obtain ⟨between, hbetween, hstate, hpayload⟩ := h.loose hindex hnode hnone
  obtain ⟨-, hvalue, hreads⟩ := hloose.new hindex hnode
  -- Every slot of the value passes its check.
  have hslots : node.payload.slots.forM (fun slot =>
      a.graph.checkSlot id slot (slot.target.map a.representative)) = .ok () := by
    refine (forM_eq_ok_iff _ _).mpr fun slot hslot => ?_
    rw [Payload.slots, Payload.successorSlots_of_isValue hvalue, List.append_nil] at hslot
    cases htarget : slot.target with
    | none =>
      have hlegal := Payload.legal_of_mem_inputSlots _ slot hslot
      exact checkSlot_none_iff.mpr (by simpa [Slot.Legal, Slot.Takes, htarget] using hlegal)
    | some target =>
      rw [Option.map_some, checkSlot_some_iff, Payload.family_of_isValue hvalue slot hslot]
      have hin := Payload.mem_inputEdges_iff.mpr ⟨slot, hslot, htarget⟩
      by_cases hstands : a.Stands table target
      · obtain ⟨found, hfound, hkind⟩ := h.offers hloose hstands
        obtain ⟨other, hother, hactive, rfl⟩ := member?_eq_some_iff.mp hfound
        exact ⟨other, hother, by simp [hactive], hkind⟩
      · -- It is loose and was not left yet, so it stands for itself.
        have hfree := get?_resolved_of_not_stands hstands
        rw [representative_of_none hfree]
        obtain ⟨hlow, hlt⟩ := (hreads target hin).resolve_left fun hgiven => hstands (Or.inl hgiven)
        obtain ⟨found, hfound⟩ := exists_node?_of_lt (Nat.lt_trans hlt (lt_size_of_node? hnode))
        obtain ⟨other, hother, hdetached, hsame⟩ := h.loose hlow hfound hfree
        refine ⟨other, hother, by simp [hdetached], ?_⟩
        rw [Node.kind, hsame]
        exact (hloose.new hlow hfound).2.1
  simp only [Attachment.enter, Table.contains, hnone, Graph.node, hbetween]
  simp [hstate, hfresh, hpayload, hslots, bind, Except.bind, pure, Except.pure]

/-- There is nothing to do for a node somebody stands for. -/
theorem enter_of_stands (h : Grafting g table g' a) (hloose : Loose g table g')
    (hstands : a.Stands table id) : a.enter id = .ok none := by
  rcases hstands with hgiven | ⟨rep, hrep⟩
  · obtain ⟨payload, hmember, -⟩ := hloose.given hgiven
    obtain ⟨node, hnode, hstate, -⟩ := member?_eq_some_iff.mp (h.member? hmember)
    simp [Attachment.enter, Table.contains, h.resolved_of_member hmember, Graph.node, hnode, hstate,
      bind, Except.bind, pure, Except.pure]
  · simp [Attachment.enter, Table.contains, hrep]

end Grafting

/-! ## 4. The whole walk -/

/-- The nodes that may still be entered. -/
def remaining (g' : Graph) (a : Attachment) : Finset NodeId :=
  g'.ids.toFinset.filter fun id => a.resolved.get? id = none ∧ id ∉ a.entered

/-- What has been done between two points of a walk at which the same nodes are still to be left.
Each node is entered once, so the bound stays large enough. -/
structure Grafts (g : Graph) (table : Table NodeId NodeId) (g' : Graph)
    (a : Attachment) (bound : Nat) (a' : Attachment) (bound' : Nat) : Prop where
  done : Grafting g table g' a'
  keeps : ∀ {id rep}, a.resolved.get? id = some rep → a'.resolved.get? id = some rep
  entered : a'.entered = a.entered
  waits : ∀ id ∈ a.entered, a.resolved.get? id = none → a'.resolved.get? id = none
  bound : (remaining g' a).card ≤ bound → (remaining g' a').card ≤ bound'

namespace Grafts

/-- A stretch of no turns. -/
theorem refl (h : Grafting g table g' a) (bound : Nat) : Grafts g table g' a bound a bound :=
  ⟨h, fun hrep => hrep, rfl, fun _ _ hnone => hnone, fun hbound => hbound⟩

/-- One stretch after the other. -/
theorem trans (h : Grafts g table g' a bound a' bound')
    (h' : Grafts g table g' a' bound' a'' bound'') :
    Grafts g table g' a bound a'' bound'' :=
  ⟨h'.done, fun hrep => h'.keeps (h.keeps hrep), h'.entered.trans h.entered,
    fun id hid hnone => h'.waits id (h.entered ▸ hid) (h.waits id hid hnone),
    fun hbound => h'.bound (h.bound hbound)⟩

/-- Whoever somebody stood for still has somebody. -/
theorem stands (h : Grafts g table g' a bound a' bound') (hstands : a.Stands table id) :
    a'.Stands table id :=
  hstands.imp_right fun ⟨rep, hrep⟩ => ⟨rep, h.keeps hrep⟩

end Grafts

/-- Walks that differ only in what they report. -/
def Agree (o o' : Outcome Fault Attachment Unit) : Prop := o.result = o'.result ∧ o.state = o'.state

theorem Agree.trans {o o' o'' : Outcome Fault Attachment Unit} (h : Agree o o')
    (h' : Agree o' o'') :
    Agree o o'' := ⟨h.1.trans h'.1, h.2.trans h'.2⟩

/-- Entering a node leaves one less. -/
theorem card_remaining_enter (hid : id.index < g'.nodes.size) (hnone : a.resolved.get? id = none)
    (hfresh : id ∉ a.entered) :
    (remaining g' { a with entered := id :: a.entered }).card + 1 = (remaining g' a).card := by
  have hin : id ∈ remaining g' a := by
    simp [remaining, mem_ids_iff, hid, hnone, hfresh]
  have herase : remaining g' { a with entered := id :: a.entered } = (remaining g' a).erase id := by
    ext other
    simp only [remaining, Finset.mem_filter, Finset.mem_erase, List.mem_cons, not_or]
    tauto
  rw [herase, Finset.card_erase_add_one hin]

/-- Leaving a node brings none back. -/
theorem card_remaining_leave (hresolved : a'.resolved = a.resolved.insert id rep)
    (hentered : a'.entered = a.entered.erase id) :
    (remaining g' a').card ≤ (remaining g' a).card := by
  refine Finset.card_le_card fun other hother => ?_
  simp only [remaining, Finset.mem_filter] at hother ⊢
  obtain ⟨hin, hnone, hout⟩ := hother
  -- The node itself has an entry now, and all others are counted as before.
  have hne : other ≠ id := by
    rintro rfl
    rw [hresolved, Table.get?_insert_self] at hnone
    exact absurd hnone (by simp)
  rw [hresolved, Table.get?_insert_of_ne _ _ hne] at hnone
  refine ⟨hin, hnone, fun hbefore => hout ?_⟩
  rw [hentered]
  exact (List.mem_erase_of_ne hne).mpr hbefore

/-- Between entering a loose value and leaving it somebody came to stand for all it reads. -/
theorem Grafts.leave (h : Grafts g table g' { a with entered := id :: a.entered } bound a' bound')
    (hdone : Grafting g table g' a'') (hid : id.index < g'.nodes.size)
    (hnone : a.resolved.get? id = none) (hfresh : id ∉ a.entered)
    (hresolved : a''.resolved = a'.resolved.insert id rep)
    (hentered : a''.entered = a'.entered.erase id) :
      Grafts g table g' a (bound + 1) a'' bound' := by
  have hothers : ∀ {other}, other ≠ id → a''.resolved.get? other = a'.resolved.get? other := by
    intro other hne
    rw [hresolved, Table.get?_insert_of_ne _ _ hne]
  -- The bound pays one turn for entering; by `card_remaining_enter` there is one node less to
  -- enter then.
  refine ⟨hdone, ?_, ?_, ?_, fun hbound => ?_⟩
  · intro other rep' hrep'
    rw [hothers ?_]
    · exact h.keeps hrep'
    · rintro rfl
      rw [hnone] at hrep'
      exact absurd hrep' (by simp)
  · rw [hentered, h.entered, List.erase_cons_head]
  · intro other hother hother'
    rw [hothers (by rintro rfl; exact hfresh hother)]
    exact h.waits other (List.mem_cons_of_mem id hother) hother'
  · have hcard := card_remaining_enter hid hnone hfresh
    have hless : (remaining g' a'').card ≤ (remaining g' a').card :=
      card_remaining_leave hresolved hentered
    have hdown := h.bound (by omega)
    omega

/-- A node a walk can be asked to attach: it is given or loose. -/
def Eligible (g : Graph) (table : Table NodeId NodeId) (g' : Graph) (id : NodeId) : Prop :=
  Given table id ∨ (g.nodes.size ≤ id.index ∧ id.index < g'.nodes.size)

/-- The walk takes care of a list of nodes if it takes care of each. -/
theorem walk_list_grafts {entered : List NodeId} (targets : List NodeId) (rest : List (Task NodeId))
    (hstep : ∀ target ∈ targets, ∀ (rest : List (Task NodeId)) {bound : Nat} {a : Attachment},
      Grafting g table g' a → a.entered = entered → (remaining g' a).card ≤ bound →
        ∃ bound' a', Agree (walk bound (.enter target :: rest) a) (walk bound' rest a') ∧
          Grafts g table g' a bound a' bound' ∧ a'.Stands table target)
    (h : Grafting g table g' a) (hentered : a.entered = entered)
    (hbound : (remaining g' a).card ≤ bound) :
    ∃ bound' a', Agree (walk bound (targets.map .enter ++ rest) a) (walk bound' rest a') ∧
      Grafts g table g' a bound a' bound' ∧ ∀ target ∈ targets, a'.Stands table target := by
  -- The induction is on the targets that are left; each step hands on the bound that it did not
  -- use.
  induction targets generalizing bound a with
  | nil => exact ⟨bound, a, ⟨rfl, rfl⟩, .refl h bound, by simp⟩
  | cons target targets ih =>
    obtain ⟨between, a', hwalk, hdone, hstands⟩ :=
      hstep target (by simp) (targets.map .enter ++ rest) h hentered hbound
    obtain ⟨bound', a'', hwalk', hdone', hstands'⟩ :=
      ih (fun other hother => hstep other (List.mem_cons_of_mem target hother)) hdone.done
        (hdone.entered.trans hentered) (hdone.bound hbound)
    refine ⟨bound', a'', hwalk.trans hwalk', hdone.trans hdone', fun other hother => ?_⟩
    rcases List.mem_cons.mp hother with rfl | hother
    · exact hdone'.stands hstands
    · exact hstands' other hother

/-- **Attaching a loose value meets no fault.** -/
theorem walk_grafts (rest : List (Task NodeId)) (hloose : Loose g table g')
    (hid : Eligible g table g' id)
    (h : Grafting g table g' a) (hopen : ∀ other ∈ a.entered, id.index < other.index)
    (hbound : (remaining g' a).card ≤ bound) :
    ∃ bound' a', Agree (walk bound (.enter id :: rest) a) (walk bound' rest a') ∧
      Grafts g table g' a bound a' bound' ∧ a'.Stands table id := by
  -- By induction on the place: what a loose value reads stands in front of it.
  induction hplace : id.index using Nat.strong_induction_on generalizing id bound rest a with
  | h place ih =>
    -- If somebody stands for the node already the walk passes it by.  Otherwise it is entered,
    -- what it reads is taken care of by the hypothesis of the induction, and it is left.
    by_cases hstands : a.Stands table id
    · refine ⟨bound, a, ?_, .refl h bound, hstands⟩
      rw [walk, h.enter_of_stands hloose hstands]
      exact ⟨rfl, rfl⟩
    · obtain ⟨hindex, hlt⟩ := hid.resolve_left fun hgiven => hstands (Or.inl hgiven)
      have hnone := get?_resolved_of_not_stands hstands
      -- A node that is entered and not left yet stands behind `id`, so `id` is none of them.
      have hfresh : id ∉ a.entered := fun hin => Nat.lt_irrefl _ (hopen id hin)
      obtain ⟨node, hnode⟩ := exists_node?_of_lt hlt
      obtain ⟨-, hvalue, hreads⟩ := hloose.new hindex hnode
      have hcard := card_remaining_enter hlt hnone hfresh
      obtain ⟨bound, rfl⟩ : ∃ less, bound = less + 1 := ⟨bound - 1, by omega⟩
      -- Entering changes the list of those entered and nothing that `Grafting` is about.
      have hentered : Grafting g table g' { a with entered := id :: a.entered } :=
        ⟨h.kept, h.framed, h.size, h.old, h.loose, h.resolved, h.members⟩
      obtain ⟨bound', a', hwalk, hdone, hstands'⟩ := walk_list_grafts
        node.payload.inputEdges (.leave id :: rest)
          (fun target htarget rest bound a' h hentered hbound => by
          by_cases hgiven : Given table target
          · refine ⟨bound, a', ?_, .refl h bound, Or.inl hgiven⟩
            rw [walk, h.enter_of_stands hloose (Or.inl hgiven)]
            exact ⟨rfl, rfl⟩
          · obtain ⟨hlow, hfront⟩ := (hreads target htarget).resolve_left hgiven
            refine ih target.index (by omega) rest (Or.inr ⟨hlow, by omega⟩) h
              (fun other hother => ?_) hbound rfl
            rw [hentered] at hother
            rcases List.mem_cons.mp hother with rfl | hother
            · exact hfront
            · exact Nat.lt_trans hfront (hopen other hother)) hentered rfl
        (show (remaining g' { a with entered := id :: a.entered }).card ≤ bound by omega)
      have hnone' : a'.resolved.get? id = none := hdone.waits id (by simp) hnone
      obtain ⟨a'', rep, reports, hleave, hgrafting, hresolved, hleft⟩ :=
        hdone.done.leave hloose hnode hindex hnone' hstands'
      have hself : a''.resolved.get? id = some rep := by rw [hresolved, Table.get?_insert_self]
      refine ⟨bound', a'', Agree.trans ?_ (hwalk.trans ?_),
        hdone.leave hgrafting hlt hnone hfresh hresolved hleft, Or.inr ⟨rep, hself⟩⟩
      · rw [walk, h.enter hloose hnode hindex hnone hfresh]
        simp only
        rw [Payload.edges_of_isValue hvalue]
        exact ⟨rfl, rfl⟩
      · rw [walk, hleave]
        exact ⟨rfl, rfl⟩

/-! ## 5. Ranks -/

/-- Ranks with the loose values put in at a level: what stood at the level or above makes room for
them, and unique members go to the bottom, where they may be read by all. -/
def graftRank (g g' : Graph) (rank : NodeId → Nat) (level : Nat) (id : NodeId) : Nat :=
  if (g'.kind? id).any Kind.isUnique then 0
  else if id.index < g.nodes.size then
    if rank id < level then rank id else rank id + (g'.nodes.size - g.nodes.size)
  else level + (id.index - g.nodes.size)

/-- Unique members are at the bottom. -/
theorem graftRank_of_isUnique {level : Nat} (hmember : g'.member? id = some payload)
    (hunique : payload.kind.isUnique = true) : graftRank g g' rank level id = 0 := by
  rw [graftRank, kind?_of_member? hmember]
  exact if_pos hunique

/-- A member that reads something is not unique. -/
theorem graftRank_of_reads {level : Nat} (hmember : g'.member? id = some payload)
    (htarget : target ∈ payload.inputEdges) : graftRank g g' rank level id
      = if id.index < g.nodes.size then
          if rank id < level then rank id else rank id + (g'.nodes.size - g.nodes.size)
        else level + (id.index - g.nodes.size) := by
  rw [graftRank, kind?_of_member? hmember]
  exact if_neg fun hunique => Payload.not_mem_inputEdges_of_isUnique hunique htarget

/-- The rank of a member of before. -/
theorem graftRank_le (g' : Graph) (rank : NodeId → Nat) (level : Nat)
    (hindex : id.index < g.nodes.size) :
    graftRank g g' rank level id
      ≤ if rank id < level then rank id else rank id + (g'.nodes.size - g.nodes.size) := by
  rw [graftRank, if_pos hindex]
  split
  · exact Nat.zero_le _
  · exact Nat.le_refl _

/-- **The graph that comes out has ranks**, if what is given ranks below the level. -/
theorem Grafting.ranked (h : Grafting g table g' a) (hloose : Loose g table g') (hkept : g.Kept)
    (hranked : g.Ranked rank) {level : Nat} (hlevel : level < g.nodes.size)
    (hgiven : ∀ {target}, Given table target → rank target < level) :
    a.graph.Ranked (graftRank g a.graph rank level) := by
  have hsize := hloose.size
  rw [← h.size] at hsize
  refine ⟨?_, ?_⟩
  · intro id payload hmember
    have hindex := index_lt_size hmember
    rcases h.members hmember with hold | hself
    · have hbound := hranked.bounded hold
      refine Nat.lt_of_le_of_lt (graftRank_le _ _ _ (index_lt_size hold)) ?_
      split <;> omega
    · have hlow := (h.resolved hself).1
      rw [graftRank, if_neg (Nat.not_lt.mpr hlow)]
      split <;> omega
  · intro id payload hmember target htarget
    rw [graftRank_of_reads hmember htarget]
    rcases h.members hmember with hold | hself
    · obtain ⟨found, hfound⟩ := hkept.member?_of_mem_inputEdges hold htarget
      have hlt := hranked.falls hold target htarget
      have hle := graftRank_le a.graph rank level (index_lt_size hfound)
      rw [if_pos (index_lt_size hold)]
      split at hle <;> split <;> omega
    · obtain ⟨hlow, before, hbefore, hmember', hstands, -⟩ := h.resolved hself
      obtain ⟨node, hnode, rfl⟩ := Option.map_eq_some_iff.mp hbefore
      rw [hmember] at hmember'
      obtain rfl := Option.some.inj hmember'
      rw [if_neg (Nat.not_lt.mpr hlow)]
      rw [Payload.inputEdges_mapEdges] at htarget
      obtain ⟨source, hsource, rfl⟩ := List.mem_map.mp htarget
      rcases (hloose.new hlow hnode).2.2 source hsource with hin | ⟨hloose', hfront⟩
      · -- What is given is a member of before, below the level.
        obtain ⟨found, hfound, -⟩ := hloose.given hin
        have hbelow := hgiven hin
        have hle := graftRank_le a.graph rank level (index_lt_size hfound)
        rw [representative_of_none (h.resolved_of_member hfound)]
        rw [if_pos hbelow] at hle
        omega
      · -- A loose value is a member itself and stands in front, or it is unique.
        rcases hstands source hsource with hin | ⟨rep, hrep⟩
        · obtain ⟨found, hfound, -⟩ := hloose.given hin
          have hsmall := index_lt_size hfound
          omega
        · obtain ⟨-, found, hfound, hrepMember, -, rfl | hunique⟩ := h.resolved hrep
          · rw [representative_of_resolved hrep, graftRank, if_neg (Nat.not_lt.mpr hloose')]
            split <;> omega
          · rw [representative_of_resolved hrep,
              graftRank_of_isUnique hrepMember (by rwa [Payload.kind_mapEdges])]
            omega

/-- **Who stands for something ranks no higher than a member above all that is given**, and is not
that member. -/
theorem Grafting.rank_representative_le (h : Grafting g table g' a) (hloose : Loose g table g')
    {call : NodeId} (hcall : g.member? call = some payload)
    (hunique : payload.kind.isUnique = false)
    (hbelow : ∀ {target}, Given table target → rank target < rank call)
    (hstands : a.Stands table id) :
    a.representative id ≠ call ∧ graftRank g a.graph rank (rank call) (a.representative id)
      ≤ graftRank g a.graph rank (rank call) call := by
  have hsize := hloose.size
  rw [← h.size] at hsize
  -- The call itself stands above all the room that is made for the loose values.
  have htop : graftRank g a.graph rank (rank call) call
      = rank call + (a.graph.nodes.size - g.nodes.size) := by
    rw [graftRank, kind?_of_member? (h.member? hcall), if_neg (by simp [hunique]),
      if_pos (index_lt_size hcall), if_neg (Nat.lt_irrefl _)]
  rw [htop]
  rcases hstands with hgiven | ⟨rep, hrep⟩
  · obtain ⟨found, hfound, -⟩ := hloose.given hgiven
    have hlt := hbelow hgiven
    have hle := graftRank_le a.graph rank (rank call) (index_lt_size hfound)
    rw [if_pos hlt] at hle
    rw [representative_of_none (h.resolved_of_member hfound)]
    refine ⟨?_, by omega⟩
    rintro rfl
    omega
  · obtain ⟨hlow, copy, -, hmember, -, hself⟩ := h.resolved hrep
    rw [representative_of_resolved hrep]
    -- A loose value that became a member ranks within the room below the call.  A unique member
    -- that stands for one ranks at the bottom, and the call is not unique.
    rcases hself with rfl | hcopyUnique
    · have hindex := index_lt_size hmember
      refine ⟨?_, ?_⟩
      · rintro rfl
        have hsmall := index_lt_size hcall
        omega
      · rw [graftRank, if_neg (Nat.not_lt.mpr hlow)]
        split <;> omega
    · have hrepUnique : (copy.mapEdges a.representative).kind.isUnique = true := by
        rwa [Payload.kind_mapEdges]
      refine ⟨?_, ?_⟩
      · rintro rfl
        rw [h.member? hcall] at hmember
        rw [Option.some.inj hmember, hrepUnique] at hunique
        exact Bool.noConfusion hunique
      · rw [graftRank_of_isUnique hmember hrepUnique]
        exact Nat.zero_le _

end Attachment

end Graph

end BehaviorGraph
