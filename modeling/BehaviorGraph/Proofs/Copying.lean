/-
# Copying

A copy starts as detached nodes, and a detached node concerns nobody: whatever a copying walk
creates, and wherever it stops, the graph that receives the copies keeps its records in agreement.
So what is needed of a copying operation here is only that it creates nodes (`Copying.walk_pushes`,
`copy_pushes`, `copyInto_pushes`), for any property that creating a node keeps.

Copying a whole graph builds new records from the old payloads alone.  Every member moves to the
place it has among the members (`Graph.seat`), every edge follows its target there, and the usages
and the pool are then recorded member by member.  `Recorded` says what holds while this is under
way: **the records are right for the members that had their turn and silent about the others**.
When all of them had their turn this is agreement (`compact_kept`).
-/
import BehaviorGraph.Graph.Copy
import BehaviorGraph.Proofs.Redirecting
import Mathlib.Data.List.Induction

namespace BehaviorGraph

/-- The table of pairs with distinct keys has these pairs as entries. -/
theorem Table.entries_ofList {κ ν : Type} [DecidableEq κ] (pairs : List (κ × ν))
    (h : (pairs.map Prod.fst).Nodup) : (Table.ofList pairs).entries = pairs := by
  induction pairs using List.reverseRecOn with
  | nil => rfl
  | append_singleton pairs pair ih =>
    rw [List.map_append, List.nodup_append] at h
    have hfresh : ∀ entry ∈ pairs, entry.1 ≠ pair.1 := fun entry hentry =>
      h.2.2 entry.1 (List.mem_map.mpr ⟨entry, hentry, rfl⟩) pair.1 (by simp)
    have hlast : Table.ofList (pairs ++ [pair]) = (Table.ofList pairs).insert pair.1 pair.2 := by
      simp [Table.ofList, List.foldl_append]
    have hkept : (pairs.filter fun entry => !decide (entry.1 = pair.1)) = pairs :=
      List.filter_eq_self.mpr fun entry hentry => by simp [hfresh entry hentry]
    rw [hlast, Table.insert, Table.erase, ih h.1]
    simp only [hkept]

namespace Graph

variable {g g' : Graph} {id user old : NodeId} {payload : Payload} {node : Node}

/-! ## 1. Detached nodes -/

/-- A new node is no member and used by nobody. -/
theorem create_preserves (payload : Payload) : Run.Preserves Kept (create payload) :=
  fun _ h => h.push payload

/-- Only the payload of a detached node can be set, and none of the records speaks of it. -/
theorem setPayload_preserves (id : NodeId) (payload : Payload) :
    Run.Preserves Kept (setPayload id payload) := by
  intro g h
  unfold Run.Ends setPayload
  cases hnode : g.node? id with
  | none => exact h
  | some node =>
    cases hstate : node.state with
    | active => simpa only [hstate] using h
    | deleted => simpa only [hstate] using h
    | detached =>
      simp only [hstate]
      refine h.modify_of_not_member hnode ?_ ?_ rfl rfl
      · simp [hstate]
      · simp [hstate]

theorem add_preserves (payload : Payload) : Run.Preserves Kept (add payload) :=
  (create_preserves payload).bind fun id _ h => attach_kept h id

/-- **Wherever a copying walk stops, it only created detached nodes**: what each creation keeps,
the walk keeps.  The recursion has a fault, a node to skip and a node to enter for a task that
enters, and a fault and a creation for one that leaves; only the last of them touches the graph. -/
theorem Copying.walk_pushes {P : Graph → Prop} (hpush : ∀ g payload, P g → P (g.push payload))
    (view : Graph → Graph) (bound : Nat) (tasks : List (Task NodeId)) (c : Copying)
    (h : P c.transfer.target) : P (Copying.walk view bound tasks c).state.transfer.target := by
  induction bound, tasks, c using Copying.walk.induct view with
  | case1 bound c => simpa [Copying.walk] using h
  | case2 bound c id rest hnone => simpa [Copying.walk, hnone] using h
  | case3 bound c id rest payload hpayload ih =>
    rw [Copying.walk]
    simp only [hpayload]
    exact ih (hpush _ _ h)
  | case4 bound c id rest fault henter => simpa [Copying.walk, henter] using h
  | case5 bound c id rest henter ih =>
    rw [Copying.walk]
    simp only [henter]
    exact ih h
  | case6 c id rest payload henter => simpa [Copying.walk, henter] using h
  | case7 c id rest payload henter bound ih =>
    rw [Copying.walk]
    simp only [henter]
    exact ih h

/-- Copying one node creates a node or nothing. -/
theorem shallowCopy_pushes {P : Graph → Prop} (hpush : ∀ g payload, P g → P (g.push payload))
    (id : NodeId) (h : P g) : P (shallowCopy id g).state := by
  change Run.Ends (shallowCopy id) g fun _ g' => P g'
  unfold shallowCopy
  rw [Run.ends_bind, Run.ends_state]
  simp only
  rw [Run.ends_bind, Run.ends_ofExcept]
  cases g.node id with
  | error fault => exact h
  | ok node =>
    simp only
    by_cases hdeleted : node.isDeleted = true
    · rw [if_pos hdeleted]
      exact h
    · rw [if_neg hdeleted]
      exact hpush g node.payload h

/-- Copying within a graph creates nodes and does nothing else. -/
theorem copy_pushes {P : Graph → Prop} (hpush : ∀ g payload, P g → P (g.push payload))
    (id : NodeId) (h : P g) : P (copy id g).state := by
  have hwalk := Copying.walk_pushes hpush (fun target => target) g.idBound [.enter id]
    ⟨⟨g, Table.empty⟩, []⟩ h
  unfold copy
  cases hcopied : Copying.walk (fun target => target) g.idBound [.enter id]
      ⟨⟨g, Table.empty⟩, []⟩ with
  | mk result c reports =>
    rw [hcopied] at hwalk
    cases result <;> exact hwalk

/-- Copying into a graph creates nodes there and may then attach one. -/
theorem copyInto_pushes {P : Graph → Prop} (hpush : ∀ g payload, P g → P (g.push payload))
    (hattach : ∀ g id, P g → P (attachResolving id g).state) (source : Graph) (root : NodeId)
    (t : Transfer) (h : P t.target) : P (copyInto source root t).state.target := by
  have hwalk :=
    Copying.walk_pushes hpush (fun _ => source) source.nodes.size [.enter root] ⟨t, []⟩ h
  unfold copyInto
  cases hcopied : Copying.walk (fun _ => source) source.nodes.size [.enter root] ⟨t, []⟩ with
  | mk result c reports =>
    rw [hcopied] at hwalk
    cases result with
    | error fault => exact hwalk
    | ok value =>
      -- The walk went through, so the copy of the root, or the root's own entry, is attached.
      have hattached := hattach _ ((c.transfer.copies.get? root).getD root) hwalk
      simp only
      cases hresult : attachResolving ((c.transfer.copies.get? root).getD root)
          c.transfer.target with
      | mk result target later =>
        rw [hresult] at hattached
        cases result <;> exact hattached

theorem shallowCopy_preserves (id : NodeId) : Run.Preserves Kept (shallowCopy id) :=
  fun _ h => shallowCopy_pushes (fun _ payload hkept => hkept.push payload) id h

theorem copy_preserves (id : NodeId) : Run.Preserves Kept (copy id) :=
  fun _ h => copy_pushes (fun _ payload hkept => hkept.push payload) id h

/-- **The graph that receives copies keeps agreement**, whatever graph they come from. -/
theorem copyInto_kept (source : Graph) (root : NodeId) (t : Transfer) (h : t.target.Kept) :
    (copyInto source root t).state.target.Kept :=
  copyInto_pushes (P := Kept) (fun _ payload hkept => hkept.push payload)
    (fun _ id hkept => attachResolving_kept hkept id) source root t h

/-! ## 2. The places of the members -/

theorem mem_ids_iff : id ∈ g.ids ↔ id.index < g.nodes.size := by
  constructor
  · intro h
    obtain ⟨index, hindex, rfl⟩ := List.mem_map.mp h
    exact List.mem_range.mp hindex
  · intro h
    exact List.mem_map.mpr ⟨id.index, List.mem_range.mpr h, rfl⟩

theorem nodup_ids (g : Graph) : g.ids.Nodup :=
  List.Pairwise.map NodeId.mk (fun _ _ hne h => hne (NodeId.mk.inj h)) List.nodup_range

theorem getElem?_ids (g : Graph) (index : Nat) :
    g.ids[index]? = if index < g.nodes.size then some ⟨index⟩ else none := by
  rw [ids, List.getElem?_map]
  by_cases h : index < g.nodes.size
  · rw [if_pos h, List.getElem?_range h]
    rfl
  · rw [if_neg h, List.getElem?_eq_none (by simpa using h)]
    rfl

theorem nodup_members (g : Graph) : g.members.Nodup := (nodup_ids g).filter _

theorem mem_members_iff : id ∈ g.members ↔ ∃ payload, g.member? id = some payload := by
  rw [members, List.mem_filter, isActive_iff]
  refine ⟨fun h => h.2, fun h => ⟨?_, h⟩⟩
  obtain ⟨payload, hmember⟩ := h
  obtain ⟨node, hnode, -, -⟩ := member?_eq_some_iff.mp hmember
  exact mem_ids_iff.mpr (lt_size_of_node? hnode)

/-- The place of each member among the members. -/
def places (g : Graph) : Table NodeId NodeId := Table.ofList (g.members.zip g.ids)

/-- **The place a member moves to** when the members close up; what is no member stays. -/
def seat (g : Graph) (id : NodeId) : NodeId := (g.places.get? id).getD id

/-- **The table of places enumerates the members**: a member has the place at which it is listed.
-/
theorem get?_places_iff {place : NodeId} :
    g.places.get? id = some place ↔ g.members[place.index]? = some id := by
  have hlen : g.members.length ≤ g.ids.length := List.length_filter_le _ _
  have hnodup : ((g.members.zip g.ids).map Prod.fst).Nodup := by
    rw [List.map_fst_zip hlen]
    exact nodup_members g
  have hentries := Table.entries_ofList _ hnodup
  have hunique : g.places.UniqueKeys := by
    unfold Table.UniqueKeys places
    rw [hentries]
    exact hnodup
  rw [hunique.get?_eq_some_iff, places, hentries, List.mem_iff_getElem?]
  simp only [List.getElem?_zip_eq_some]
  constructor
  · rintro ⟨index, hid, hplace⟩
    rw [getElem?_ids] at hplace
    split at hplace
    · obtain rfl := Option.some.inj hplace
      exact hid
    · exact absurd hplace (by simp)
  · intro hid
    have hlt := (List.getElem?_eq_some_iff.mp hid).1
    have hsize : g.ids.length = g.nodes.size := by simp [ids]
    refine ⟨place.index, hid, ?_⟩
    rw [getElem?_ids, if_pos (by omega)]

/-- A member has a place, and is found there. -/
theorem getElem?_members_seat (h : g.member? id = some payload) :
    g.members[(g.seat id).index]? = some id ∧ g.places.get? id = some (g.seat id) := by
  obtain ⟨index, hindex⟩ := List.mem_iff_getElem?.mp (mem_members_iff.mpr ⟨payload, h⟩)
  have hplace : g.places.get? id = some ⟨index⟩ := get?_places_iff.mpr hindex
  rw [seat, hplace]
  exact ⟨hindex, rfl⟩

/-! ## 3. The payloads at their new places -/

/-- The members at their new places, before anything is recorded about them. -/
def gathered (g : Graph) : Graph where
  name := g.name
  owner := g.owner
  nodes := ((g.members.filterMap g.payload?).map fun payload =>
    ({ payload :=
      (payload.assignInputs (payload.inputs.map (·.bind g.places.get?))).assignSuccessors
        (payload.successors.map (·.bind g.places.get?))
       state := .active
       member := true } : Node)).toArray

/-- Closing up is to gather the members and then to record them one after the other. -/
theorem compact_eq (g : Graph) : g.compact = g.gathered.ids.foldl settle g.gathered := rfl

/-- Where every element has an image, images keep their places. -/
theorem getElem?_filterMap_of_isSome {α β : Type} {f : α → Option β} {items : List α}
    (h : ∀ item ∈ items, (f item).isSome = true) (index : Nat) :
    (items.filterMap f)[index]? = items[index]?.bind f := by
  induction items generalizing index with
  | nil => rfl
  | cons item items ih =>
    obtain ⟨image, himage⟩ := Option.isSome_iff_exists.mp (h item (by simp))
    rw [List.filterMap_cons, himage]
    cases index with
    | zero => simp [himage]
    | succ index =>
      rw [List.getElem?_cons_succ, List.getElem?_cons_succ]
      exact ih (fun other hother => h other (List.mem_cons_of_mem item hother)) index

/-- **The edges of a member lead to members, so each follows its target to its new place.** -/
theorem moved_eq_mapEdges (h : g.Kept) (hmember : g.member? id = some payload) :
    (payload.assignInputs (payload.inputs.map (·.bind g.places.get?))).assignSuccessors
      (payload.successors.map (·.bind g.places.get?)) = payload.mapEdges g.seat := by
  -- A target that has no place would be dropped here, but it is a member, so it has one.
  have hslot : ∀ slot ∈ payload.slots,
      slot.target.bind g.places.get? = slot.target.map g.seat := by
    intro slot hslot
    cases htarget : slot.target with
    | none => rfl
    | some target =>
      obtain ⟨found, hfound⟩ :=
        h.member?_of_mem_edges hmember (Payload.mem_edges_iff.mpr ⟨slot, hslot, htarget⟩)
      exact (getElem?_members_seat hfound).2
  have hin : payload.inputs.map (·.bind g.places.get?)
      = payload.inputs.map (Option.map g.seat) := by
    simp only [Payload.inputs, List.map_map]
    exact List.map_congr_left fun slot hmem => hslot slot (List.mem_append_left _ hmem)
  have hsucc : payload.successors.map (·.bind g.places.get?)
      = payload.successors.map (Option.map g.seat) := by
    simp only [Payload.successors, List.map_map]
    exact List.map_congr_left fun slot hmem => hslot slot (List.mem_append_right _ hmem)
  rw [hin, hsucc, Payload.mapEdges]

/-- The node at each new place. -/
theorem node?_gathered (h : g.Kept) (id : NodeId) :
    g.gathered.node? id = (g.members[id.index]?.bind g.member?).map fun payload =>
      { payload := payload.mapEdges g.seat, state := .active, member := true } := by
  have hsome : ∀ old ∈ g.members, (g.payload? old).isSome = true := by
    intro old hold
    obtain ⟨payload, hmember⟩ := mem_members_iff.mp hold
    simp [payload?_of_member? hmember]
  rw [node?, gathered, List.getElem?_toArray, List.getElem?_map, getElem?_filterMap_of_isSome hsome]
  cases hold : g.members[id.index]? with
  | none => rfl
  | some old =>
    obtain ⟨payload, hmember⟩ := mem_members_iff.mp (List.mem_of_getElem? hold)
    simp only [Option.bind_some, payload?_of_member? hmember, hmember, Option.map_some,
      moved_eq_mapEdges h hmember]

/-- What is gathered at a place is the member listed there, with its edges moved. -/
theorem member?_gathered (h : g.Kept) (id : NodeId) :
    g.gathered.member? id
      = (g.members[id.index]?.bind g.member?).map fun payload => payload.mapEdges g.seat := by
  unfold member?
  rw [node?_gathered h]
  change _ = Option.map _ (g.members[id.index]?.bind g.member?)
  cases g.members[id.index]?.bind g.member? <;> rfl

/-- A member is found at its new place. -/
theorem member?_gathered_seat (h : g.Kept) (hmember : g.member? old = some payload) :
    g.gathered.member? (g.seat old) = some (payload.mapEdges g.seat) := by
  rw [member?_gathered h, (getElem?_members_seat hmember).1, Option.bind_some, hmember,
    Option.map_some]

/-- Nothing else is found there. -/
theorem member?_gathered_eq_some (h : g.Kept) (hmember : g.gathered.member? id = some payload) :
    ∃ old before, g.members[id.index]? = some old ∧ g.member? old = some before ∧
      payload = before.mapEdges g.seat := by
  rw [member?_gathered h] at hmember
  obtain ⟨before, hbefore, rfl⟩ := Option.map_eq_some_iff.mp hmember
  obtain ⟨old, hold, hbefore⟩ := Option.bind_eq_some_iff.mp hbefore
  exact ⟨old, before, hold, hbefore, rfl⟩

/-- Slots stay filled when their targets move. -/
theorem filled_gathered (h : g.Kept) (hmember : g.gathered.member? id = some payload) :
    ∀ slot ∈ payload.slots, g.gathered.Fills slot := by
  obtain ⟨old, before, -, hbefore, rfl⟩ := member?_gathered_eq_some h hmember
  intro slot hslot
  rw [Payload.slots_mapEdges] at hslot
  obtain ⟨slot, hbehind, rfl⟩ := List.mem_map.mp hslot
  have hfilled := h.filled hbefore slot hbehind
  cases htarget : slot.target with
  | none => exact (fills_none (by simp [htarget])).mpr ((fills_none htarget).mp hfilled)
  | some target =>
    obtain ⟨found, hfound, hfamily⟩ := (fills_some htarget).mp hfilled
    refine (fills_some (show _ = some (g.seat target) by simp [htarget])).mpr ?_
    exact ⟨found.mapEdges g.seat, member?_gathered_seat h hfound, by simpa using hfamily⟩

/-- No two of the gathered members have the same unique payload. -/
theorem gathered_unique (h : g.Kept) {id' : NodeId} (hunique : payload.kind.isUnique = true)
    (hmember : g.gathered.member? id = some payload)
    (hmember' : g.gathered.member? id' = some payload) : id = id' := by
  obtain ⟨old, before, hold, hbefore, rfl⟩ := member?_gathered_eq_some h hmember
  obtain ⟨old', before', hold', hbefore', hsame⟩ := member?_gathered_eq_some h hmember'
  have hunique' : before'.kind.isUnique = true := by
    rw [← Payload.kind_mapEdges g.seat before', ← hsame]
    exact hunique
  rw [Payload.kind_mapEdges] at hunique
  rw [Payload.mapEdges_of_isUnique hunique, Payload.mapEdges_of_isUnique hunique'] at hsame
  subst hsame
  -- A unique payload has no edges, so moving made no two of them equal: the members were equal
  -- before, and the pool knew only one.
  have hpool := h.pooled?_eq_some_iff.mpr ⟨hbefore, hunique⟩
  rw [h.pooled?_eq_some_iff.mpr ⟨hbefore', hunique⟩] at hpool
  obtain rfl := Option.some.inj hpool
  have hindex := (List.getElem?_inj (List.getElem?_eq_some_iff.mp hold).1 (nodup_members g)).mp
    (hold.trans hold'.symm)
  exact congrArg NodeId.mk hindex

/-! ## 4. Recording the members -/

/-- **The records of `g` are right for the members of `start` that had their turn**, and say nothing
about the others. -/
structure Recorded (start g : Graph) (done : List NodeId) : Prop where
  payloads : g.payload? = start.payload?
  members : g.member? = start.member?
  counted : ∀ {id node}, g.node? id = some node → ∀ user,
    node.usages.count user = if user ∈ done then start.weight user id else 0
  marked : ∀ {id node}, g.node? id = some node → (node.member = true ↔ node.state = .active)
  pooled : ∀ {payload id}, (payload, id) ∈ g.pool.entries
    ↔ id ∈ done ∧ start.member? id = some payload ∧ payload.kind.isUnique = true
  keys : g.pool.UniqueKeys

variable {start : Graph} {done : List NodeId}

/-- Every node of `start` is a member, and its unique members differ. -/
structure Populated (start : Graph) : Prop where
  member : ∀ {id payload}, start.payload? id = some payload → start.member? id = some payload
  unique : ∀ {id id' payload}, payload.kind.isUnique = true → start.member? id = some payload →
    start.member? id' = some payload → id = id'

/-- What is no member has nothing to record. -/
theorem Recorded.absent (h : Recorded start g done) (hnone : start.member? id = none) :
    Recorded start g (id :: done) := by
  refine ⟨h.payloads, h.members, ?_, h.marked, ?_, h.keys⟩
  · intro target node hnode user
    rw [h.counted hnode user]
    by_cases huser : user = id
    · subst huser
      simp [weight_of_not_member hnone]
    · simp [huser]
  · intro payload other
    rw [h.pooled, List.mem_cons]
    constructor
    · rintro ⟨hdone, hmember⟩
      exact ⟨Or.inr hdone, hmember⟩
    · rintro ⟨rfl | hdone, hmember, hunique⟩
      · rw [hnone] at hmember
        exact absurd hmember (by simp)
      · exact ⟨hdone, hmember, hunique⟩

/-- **One more member is recorded.**  Its edges are counted for it, which changes no count of
another user, and if it is unique it is the first to have its payload. -/
theorem Recorded.settle (hstart : start.Populated) (h : Recorded start g done)
    (hfresh : id ∉ done) :
    Recorded start (g.settle id) (id :: done) := by
  unfold Graph.settle
  cases hpayload : g.payload? id with
  | none =>
    have hnone : start.member? id = none := by
      by_contra hsome
      obtain ⟨payload, hmember⟩ := Option.ne_none_iff_exists'.mp hsome
      rw [h.payloads, payload?_of_member? hmember] at hpayload
      exact absurd hpayload (by simp)
    exact h.absent hnone
  | some payload =>
    have hmember := hstart.member (h.payloads ▸ hpayload)
    -- The usages do not depend on what happens to the pool.
    have hcounted : ∀ {target node}, (g.addUsages id payload.edges).node? target = some node →
        ∀ user, node.usages.count user = if user ∈ id :: done then start.weight user target
          else 0 := by
      intro target node hnode user
      rw [node?_addUsages] at hnode
      obtain ⟨before, hbefore, rfl⟩ := Option.map_eq_some_iff.mp hnode
      simp only [List.count_append, List.count_replicate, h.counted hbefore user, List.mem_cons]
      by_cases huser : user = id
      · subst huser
        simp [hfresh, weight_of_member? hmember]
      · simp [huser, Ne.symm huser]
    have hmarked : ∀ {target node}, (g.addUsages id payload.edges).node? target = some node →
        (node.member = true ↔ node.state = .active) := by
      intro target node hnode
      rw [node?_addUsages] at hnode
      obtain ⟨before, hbefore, rfl⟩ := Option.map_eq_some_iff.mp hnode
      simpa using h.marked hbefore
    have hpayloads : (g.addUsages id payload.edges).payload? = start.payload? := by
      funext other
      rw [← h.payloads, Graph.payload?, node?_addUsages, Graph.payload?]
      cases g.node? other <;> rfl
    have hmembers : (g.addUsages id payload.edges).member? = start.member? := by
      rw [member?_addUsages, h.members]
    -- An entry for the payload would be that of another member with the same unique payload.
    have habsent : payload.kind.isUnique = true → ∀ {other}, (payload, other) ∉ g.pool.entries := by
      intro hunique other hentry
      obtain ⟨hdone, hother, -⟩ := h.pooled.mp hentry
      exact hfresh (hstart.unique hunique hmember hother ▸ hdone)
    simp only [pool_addUsages]
    by_cases hunique : payload.kind.isUnique = true
    · have hnew : g.pool.contains payload = false := by
        cases hget : g.pool.get? payload with
        | none => simp [Table.contains, hget]
        | some other => exact absurd (h.keys.get?_eq_some_iff.mp hget) (habsent hunique)
      rw [hunique, hnew, if_pos (by simp)]
      refine ⟨hpayloads, hmembers, hcounted, hmarked, ?_, h.keys.insert payload id⟩
      intro payload' other
      rw [Table.mem_insert_iff, h.pooled, List.mem_cons, Prod.mk.injEq]
      constructor
      · rintro (⟨⟨hdone, hother⟩, -⟩ | ⟨rfl, rfl⟩)
        · exact ⟨Or.inr hdone, hother⟩
        · exact ⟨Or.inl rfl, hmember, hunique⟩
      · rintro ⟨rfl | hdone, hother, hunique'⟩
        · rw [hmember] at hother
          exact Or.inr ⟨(Option.some.inj hother).symm, rfl⟩
        · refine Or.inl ⟨⟨hdone, hother, hunique'⟩, ?_⟩
          rintro rfl
          exact hfresh (hstart.unique hunique hmember hother ▸ hdone)
    · rw [if_neg (by simp [hunique])]
      refine ⟨hpayloads, hmembers, hcounted, hmarked, ?_, by simpa using h.keys⟩
      intro payload' other
      rw [pool_addUsages, h.pooled, List.mem_cons]
      constructor
      · rintro ⟨hdone, hother⟩
        exact ⟨Or.inr hdone, hother⟩
      · rintro ⟨rfl | hdone, hother, hunique'⟩
        · rw [hmember] at hother
          rw [← Option.some.inj hother] at hunique'
          exact absurd hunique' hunique
        · exact ⟨hdone, hother, hunique'⟩

/-- Recording a list of members, none of them twice, by induction on the list. -/
theorem Recorded.foldl (hstart : start.Populated) (ids : List NodeId) (h : Recorded start g done)
    (hnodup : ids.Nodup) (hfresh : ∀ id ∈ ids, id ∉ done) :
    Recorded start (ids.foldl Graph.settle g) (ids.reverse ++ done) := by
  induction ids generalizing g done with
  | nil => exact h
  | cons id ids ih =>
    rw [List.nodup_cons] at hnodup
    have hnext := h.settle hstart (hfresh id (by simp))
    have hrest := ih hnext hnodup.2 fun other hother => by
      rw [List.mem_cons, not_or]
      refine ⟨?_, hfresh other (List.mem_cons_of_mem id hother)⟩
      rintro rfl
      exact hnodup.1 hother
    simpa using hrest

/-- Nothing but members is gathered, and no two of them have the same unique payload. -/
theorem populated_gathered (h : g.Kept) : g.gathered.Populated := by
  refine ⟨?_, fun hunique => gathered_unique h hunique⟩
  intro id payload hpayload
  rw [payload?, node?_gathered h, Option.map_map] at hpayload
  rw [member?_gathered h]
  exact hpayload

/-- In the beginning nobody had a turn, no node has users, and the pool is empty. -/
theorem recorded_gathered (h : g.Kept) : Recorded g.gathered g.gathered [] := by
  have hnode : ∀ {id node}, g.gathered.node? id = some node →
      node.usages = [] ∧ node.member = true ∧ node.state = .active := by
    intro id node hnode
    rw [node?_gathered h] at hnode
    obtain ⟨payload, -, rfl⟩ := Option.map_eq_some_iff.mp hnode
    exact ⟨rfl, rfl, rfl⟩
  refine ⟨rfl, rfl, ?_, ?_, ?_, Table.uniqueKeys_empty⟩
  · intro id node hfound user
    simp [(hnode hfound).1]
  · intro id node hfound
    simp [(hnode hfound).2]
  · intro payload id
    simp [gathered, Table.empty]

/-- Closing up records the edges of every member. -/
theorem recorded_compact (h : g.Kept) : Recorded g.gathered g.compact g.gathered.ids.reverse := by
  have hrecorded := (recorded_gathered h).foldl (populated_gathered h) g.gathered.ids
    (nodup_ids _) (by simp)
  rw [List.append_nil, ← compact_eq] at hrecorded
  exact hrecorded

/-- **A graph whose members close up has records that agree.** -/
theorem compact_kept (h : g.Kept) : g.compact.Kept := by
  have hrecorded := recorded_compact h
  -- Every member had its turn, so whatever is conditional on that holds.
  have hturn : ∀ {id payload}, g.gathered.member? id = some payload →
      id ∈ g.gathered.ids.reverse := by
    intro id payload hmember
    obtain ⟨node, hnode, -, -⟩ := member?_eq_some_iff.mp hmember
    exact List.mem_reverse.mpr (mem_ids_iff.mpr (lt_size_of_node? hnode))
  refine ⟨?_, ?_, hrecorded.marked, ?_, hrecorded.keys⟩
  · intro id payload hmember slot hslot
    rw [hrecorded.members] at hmember
    refine (filled_gathered h hmember slot hslot).mono fun family target _ hoffers => ?_
    simpa only [Offers, hrecorded.members] using hoffers
  · intro id node hnode user
    rw [hrecorded.counted hnode user, weight, weight, hrecorded.members]
    cases hmember : g.gathered.member? user with
    | none => simp
    | some payload => simp [hturn hmember]
  · intro payload id
    rw [hrecorded.pooled, hrecorded.members]
    exact ⟨fun hentry => hentry.2, fun hentry => ⟨hturn hentry.1, hentry⟩⟩

end Graph

end BehaviorGraph
