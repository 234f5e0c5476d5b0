/-
# Exchanging values

A value may stand wherever another value stands, so nothing but a way back to the old value can
keep a replacement of one by the other from succeeding.  Ranks rule that out: **a value is
exchanged for any other of no higher rank**, and the ranks of the members stay as they are
(`replace_value`).

The new value may be a member already, or a node that was created for the purpose
(`replace_created`).  A new node takes the rank of the value it is exchanged for, provided it reads
members of lower rank.
-/
import BehaviorGraph.Proofs.Outline

namespace BehaviorGraph

/-! ## 1. Values fit where values stand -/

/-- The families slots ask for, over all the payloads there are. -/
theorem Payload.family_of_mem_slots {payload : Payload} {slot : Slot} (h : slot ∈ payload.slots) :
    slot.family = .value ∨ slot.family = .blockEnd ∨ slot.family = .sideEffect ∨
      slot.family = .control := by
  revert slot
  cases payload <;>
    simp [slots, inputSlots, successorSlots, Slot.required, Slot.maybe, or_imp, forall_and]

/-- Of these a value belongs to one: it ends no block, has no side effect and is no control node.
-/
theorem Kind.family_eq_value {kind : Kind} {family : Family} (hvalue : kind.isA .value = true)
    (hkind : kind.isA family = true)
    (hfamily : family = .value ∨ family = .blockEnd ∨ family = .sideEffect ∨ family = .control) :
    family = .value := by
  rcases hfamily with rfl | rfl | rfl | rfl
  · rfl
  all_goals
    cases kind <;> first | exact Bool.noConfusion hvalue | exact Bool.noConfusion hkind

/-- A unique node is a value. -/
theorem Kind.isA_value_of_isUnique {kind : Kind} (h : kind.isUnique = true) :
    kind.isA .value = true := by
  cases kind <;> first | rfl | exact Bool.noConfusion h

namespace Graph

variable {g : Graph} {old new id member : NodeId} {payload found : Payload} {rank : NodeId → Nat}

/-- A user of a node is a member with an edge to it. -/
theorem Kept.member?_of_mem_users (h : g.Kept) {node : Node} (hnode : g.node? old = some node)
    {user : NodeId} (huser : user ∈ g.users old) : ∃ payload, g.member? user = some payload := by
  have hcount := h.counted hnode user
  have hmem : user ∈ node.usages := by
    simpa [users, usages, hnode, List.mem_eraseDups] using huser
  cases hmember : g.member? user with
  | some payload => exact ⟨payload, rfl⟩
  | none =>
    rw [weight_of_not_member hmember] at hcount
    exact absurd (List.count_pos_iff.mpr hmem) (by omega)

/-- **A value fits every slot another value fills**: the slot holds a value, so a value is what it
asks for. -/
theorem checkReplacement_of_values (h : g.Kept) (hold : g.member? old = some payload)
    (hvalue : payload.kind.isA .value = true) {kind : Kind} (hkind : kind.isA .value = true) :
    (g.users old).forM (g.checkReplacement old kind) = .ok () := by
  obtain ⟨node, hnode, -, -⟩ := member?_eq_some_iff.mp hold
  refine (forM_eq_ok_iff _ _).mpr fun user huser => ?_
  obtain ⟨used, hused⟩ := h.member?_of_mem_users hnode huser
  rw [checkReplacement, payload?_of_member? hused]
  refine (forM_eq_ok_iff _ _).mpr fun slot hslot => ?_
  by_cases htarget : slot.target = some old
  · obtain ⟨offered, hoffered, hfamily⟩ := (fills_some htarget).mp (h.filled hused slot hslot)
    rw [hold] at hoffered
    obtain rfl := Option.some.inj hoffered
    have heq := Kind.family_eq_value hvalue hfamily (Payload.family_of_mem_slots hslot)
    simp [heq, hkind]
  · simp [htarget]

/-- The slots of a value are filled if it reads values. -/
theorem fills_of_values (hvalue : payload.kind.isA .value = true)
    (h : ∀ target ∈ payload.inputEdges, g.Offers target .value) :
    ∀ slot ∈ payload.slots, g.Fills slot := by
  intro slot hslot
  rw [Payload.slots, Payload.successorSlots_of_isValue hvalue, List.append_nil] at hslot
  cases htarget : slot.target with
  | none =>
    refine (fills_none htarget).mpr ?_
    have hlegal := Payload.legal_of_mem_inputSlots payload slot hslot
    simpa [Slot.Legal, Slot.Takes, htarget] using hlegal
  | some target =>
    rw [fills_some htarget, Payload.family_of_isValue hvalue slot hslot]
    exact h target (Payload.mem_inputEdges_iff.mpr ⟨slot, hslot, htarget⟩)

/-! ## 2. Ranks -/

/-- Moving edges takes no place in the arena. -/
theorem size_redirect (g : Graph) (old new : NodeId) :
    (g.redirect old new).nodes.size = g.nodes.size := by
  have hfold : ∀ (ids : List NodeId) (g : Graph),
      (ids.foldl (fun g user => g.modify user (movedNode old new)) g).nodes.size
        = g.nodes.size := by
    intro ids
    induction ids with
    | nil => exact fun _ => rfl
    | cons first ids ih =>
      intro g
      rw [List.foldl_cons, ih, size_modify]
  rw [redirect_eq, size_modify, size_modify, hfold]

/-- Neither does deleting a node. -/
theorem size_withdraw (g : Graph) (id : NodeId) (payload : Payload) :
    (g.withdraw id payload).nodes.size = g.nodes.size := by
  rw [withdraw, size_modify, unregister]
  split <;> rw [size_removeUsages]

/-- Edges moved to a node of no higher rank still fall: those that led to `old` lead to something
below them all the more. -/
theorem Ranked.exchange {g' : Graph} (hranked : g.Ranked rank) (hle : rank new ≤ rank old)
    (hsize : g'.nodes.size = g.nodes.size)
    (hmembers : ∀ id, g'.member? id
      = if id = old then none else (g.member? id).map (Payload.mapEdges (swap old new))) :
    g'.Ranked rank := by
  have hbefore : ∀ {id payload'}, g'.member? id = some payload' →
      ∃ payload, g.member? id = some payload ∧ payload' = payload.mapEdges (swap old new) := by
    intro id payload' hmember'
    rw [hmembers] at hmember'
    split at hmember'
    · exact absurd hmember' (by simp)
    · obtain ⟨payload, hmember, rfl⟩ := Option.map_eq_some_iff.mp hmember'
      exact ⟨payload, hmember, rfl⟩
  refine ⟨?_, ?_⟩
  · intro id payload' hmember'
    obtain ⟨payload, hmember, -⟩ := hbefore hmember'
    rw [hsize]
    exact hranked.bounded hmember
  · intro id payload' hmember' target' htarget'
    obtain ⟨payload, hmember, rfl⟩ := hbefore hmember'
    rw [Payload.inputEdges_mapEdges] at htarget'
    obtain ⟨target, htarget, rfl⟩ := List.mem_map.mp htarget'
    have hfalls := hranked.falls hmember target htarget
    unfold swap
    split
    · rename_i heq
      subst heq
      omega
    · exact hfalls

/-- A member may take any rank above those of what it reads, if nobody reads it or the rank is no
higher than the one it had. -/
theorem Ranked.update {g' : Graph} (hranked : g.Ranked rank) (h : g.Kept) (level : Nat)
    (hlevel : level < g'.nodes.size) (hsize : g.nodes.size ≤ g'.nodes.size)
    (hlow : g.member? new = none ∨ level ≤ rank new)
    (hmembers : ∀ id, g'.member? id = if id = new then some payload else g.member? id)
    (hreads : ∀ target ∈ payload.inputEdges, target ≠ new ∧ rank target < level) :
    g'.Ranked fun id => if id = new then level else rank id := by
  refine ⟨?_, ?_⟩
  · intro id payload' hmember
    rw [hmembers] at hmember
    split
    · exact hlevel
    · rename_i hne
      rw [if_neg hne] at hmember
      exact Nat.lt_of_lt_of_le (hranked.bounded hmember) hsize
  · intro id payload' hmember target htarget
    rw [hmembers] at hmember
    split at hmember
    -- The member itself, above what it reads.
    · rename_i heq
      obtain rfl := Option.some.inj hmember
      obtain ⟨hne, hlt⟩ := hreads target htarget
      simp only [if_neg hne, if_pos heq]
      exact hlt
    · rename_i hne
      -- Another member, which may read the one whose rank was changed.
      have hfalls := hranked.falls hmember target htarget
      obtain ⟨read, hread⟩ := h.member?_of_mem_inputEdges hmember htarget
      simp only [if_neg hne]
      split
      · rename_i heq
        subst heq
        rcases hlow with hnone | hle
        · rw [hnone] at hread
          exact absurd hread (by simp)
        · omega
      · exact hfalls

/-! ## 3. The exchange -/

/-- **The value `old` was exchanged for `new`**: every edge to the old one goes to the new one now.
-/
structure Exchanged (g : Graph) (old new : NodeId) (g' : Graph) : Prop where
  kept : g'.Kept
  size : g'.nodes.size = g.nodes.size
  member? : ∀ id, g'.member? id
    = if id = old then none else (g.member? id).map (Payload.mapEdges (swap old new))
  framed : g.Framed g'
  /-- Who is no member stays as it is. -/
  idle : ∀ {id node}, g.node? id = some node → node.state ≠ .active → ∃ node',
    g'.node? id = some node' ∧ node'.state = node.state ∧ node'.payload = node.payload

/-- The old value is no member any more. -/
theorem Exchanged.gone {g' : Graph} (h : g.Exchanged old new g') : g'.member? old = none := by
  rw [h.member?, if_pos rfl]

/-- The others are, with their edges to it moved. -/
theorem Exchanged.member?_of_ne {g' : Graph} (h : g.Exchanged old new g') (hne : id ≠ old)
    (hmember : g.member? id = some payload) :
    g'.member? id = some (payload.mapEdges (swap old new)) := by
  rw [h.member?, if_neg hne, hmember, Option.map_some]

/-- Moving the edges of a value and withdrawing it is framed. -/
theorem framed_exchange (h : g.Kept) (hne : new ≠ old) (hold : g.member? old = some payload)
    (hvalue : payload.kind.isA .value = true) (hnew : g.member? new = some found)
    (hkind : found.kind.isA .value = true) :
    g.Framed ((g.redirect old new).withdraw old (payload.mapEdges (swap old new))) := by
  obtain ⟨node, hnode, -, -⟩ := member?_eq_some_iff.mp hold
  -- The edges are moved first, and what is withdrawn then is a value that nobody uses.
  have hfits : (g.users old).forM (g.checkReplacement old found.kind) = .ok () :=
    checkReplacement_of_values h hold hvalue hkind
  have hkept : (g.redirect old new).Kept :=
    kept_redirect h hne hnode hnew fun hmember => fits_of_forM_eq_ok h hnode hfits hmember
  have hmoved : (g.redirect old new).member? old = some (payload.mapEdges (swap old new)) := by
    rw [member?_redirect h hne hnode, hold, Option.map_some]
  exact (framed_redirect h hne hold hvalue hnew hkind).trans
    (framed_withdraw hkept hmoved (by rwa [Payload.kind_mapEdges]))

/-- Nodes that are no members stay as they are when edges of members move and a member is
withdrawn: they are not the member withdrawn, and no users of it. -/
theorem node?_exchange_of_not_active (h : g.Kept) (hne : new ≠ old)
    (hold : g.member? old = some payload)
    {node : Node} (hnode : g.node? id = some node) (hstate : node.state ≠ .active)
    (left : Payload) :
    ∃ node', ((g.redirect old new).withdraw old left).node? id = some node' ∧
      node'.state = node.state ∧ node'.payload = node.payload := by
  obtain ⟨oldNode, holdNode, holdState, -⟩ := member?_eq_some_iff.mp hold
  have hid : id ≠ old := by
    rintro rfl
    rw [hnode] at holdNode
    obtain rfl := Option.some.inj holdNode
    exact hstate holdState
  have huser : id ∉ g.users old := by
    intro huser
    obtain ⟨used, hused⟩ := h.member?_of_mem_users holdNode huser
    rw [member?_eq_none_of_node? hnode hstate] at hused
    exact absurd hused (by simp)
  rw [node?_withdraw, node?_redirect hne, hnode, Option.map_some, Option.map_some]
  simp only [if_neg hid, if_neg huser]
  exact ⟨_, rfl, rfl, rfl⟩

/-- **Replacing a value by a value of no higher rank succeeds**, and keeps the ranks.  Of the six
ways a replacement can end, the first five are excluded one after the other. -/
theorem replace_value (h : g.Kept) (hold : g.member? old = some payload)
    (hvalue : payload.kind.isA .value = true) (hnew : (attach new g).result = .ok member)
    (hfound : (attach new g).state.member? member = some found)
    (hkind : found.kind.isA .value = true) (hranked : (attach new g).state.Ranked rank)
    (hne : member ≠ old) (hle : rank member ≤ rank old) :
    (replace old new).Ends g fun r g' =>
      r = .ok member ∧ (attach new g).state.Exchanged old member g' ∧ g'.Ranked rank := by
  have hkept := attach_kept h new
  have hold' := (attach_grown h new).member? hold
  have hafter := replace_preserves old new g h
  have hends := replace_ends h old new
  unfold Run.Ends at hafter hends ⊢
  generalize (replace old new g).result = r at hafter hends ⊢
  generalize (replace old new g).state = g' at hafter hends ⊢
  cases hends with
  | inactive hbad =>
    rw [requireActive_eq_ok_iff.mpr ⟨payload, hold⟩] at hbad
    exact absurd hbad (by simp)
  | unattached _ hbad =>
    rw [hnew] at hbad
    exact absurd hbad (by simp)
  | same _ hbad =>
    rw [hnew] at hbad
    exact absurd (Except.ok.inj hbad) hne
  -- The old value is not reached from the new one, as edges fall.
  | reached _ hbad hne' hreach =>
    rw [hnew] at hbad
    obtain rfl := Except.ok.inj hbad
    rw [reaches_eq_false hkept hranked hfound hkind hne hle] at hreach
    exact absurd hreach (by simp)
  -- Every user takes a value in its place.
  | misfit _ hbad _ _ hfound' hcheck =>
    rw [hnew] at hbad
    obtain rfl := Except.ok.inj hbad
    rw [hfound] at hfound'
    obtain rfl := Option.some.inj hfound'
    rw [checkReplacement_of_values hkept hold' hvalue hkind] at hcheck
    exact absurd hcheck (by simp)
  | moved hold'' hok _ _ _ _ =>
    rw [hnew] at hok
    obtain rfl := Except.ok.inj hok
    obtain ⟨node, hnode, -, -⟩ := member?_eq_some_iff.mp hold'
    have hmembers : ∀ id, (((attach new g).state.redirect old member).withdraw old
        (payload.mapEdges (swap old member))).member? id
          = if id = old then none
            else ((attach new g).state.member? id).map (Payload.mapEdges (swap old member)) := by
      intro id
      rw [member?_withdraw, member?_redirect hkept hne hnode]
    rw [hold] at hold''
    obtain rfl := Option.some.inj hold''
    have hframed := framed_exchange hkept hne hold' hvalue hfound hkind
    have hsize : (((attach new g).state.redirect old member).withdraw old
        (payload.mapEdges (swap old member))).nodes.size = (attach new g).state.nodes.size := by
      rw [size_withdraw, size_redirect]
    exact ⟨rfl, ⟨hafter, hsize, hmembers, hframed, fun hnode hstate =>
      node?_exchange_of_not_active hkept hne hold' hnode hstate _⟩,
      hranked.exchange hle hsize hmembers⟩

/-- A value is exchanged for another member, which attaching leaves as it is. -/
theorem replace_member (h : g.Kept) (hranked : g.Ranked rank) (hold : g.member? old = some payload)
    (hvalue : payload.kind.isA .value = true) (hnew : g.member? new = some found)
    (hkind : found.kind.isA .value = true) (hne : new ≠ old) (hle : rank new ≤ rank old) :
    (replace old new).Ends g fun r g' =>
      r = .ok new ∧ g.Exchanged old new g' ∧ g'.Ranked rank := by
  obtain ⟨hresult, hstate⟩ := attach_of_isActive (isActive_iff.mpr ⟨found, hnew⟩)
  have hends :=
    replace_value h hold hvalue hresult (by rwa [hstate]) hkind (by rwa [hstate]) hne hle
  rwa [hstate] at hends

/-- **The value `old` was exchanged for a new node** with payload `found` at the end of the arena.
-/
structure Superseded (g : Graph) (old : NodeId) (found : Payload) (g' : Graph) : Prop where
  kept : g'.Kept
  size : g'.nodes.size = g.nodes.size + 1
  gone : g'.member? old = none
  new : g'.member? ⟨g.nodes.size⟩ = some found
  member? : ∀ {id payload}, id ≠ old → g.member? id = some payload →
    g'.member? id = some (payload.mapEdges (swap old ⟨g.nodes.size⟩))
  /-- There is no other new member. -/
  only : ∀ {id payload}, g'.member? id = some payload → id ≠ ⟨g.nodes.size⟩ →
    ∃ payload', g.member? id = some payload'
  framed : g.Framed g'

/-- A node that is not in the arena is no member. -/
theorem member?_size (g : Graph) : g.member? ⟨g.nodes.size⟩ = none := by
  simp [Graph.member?, (g.node?_eq_none_iff ⟨g.nodes.size⟩).mpr (Nat.le_refl _)]

/-- A member is not at the end of the arena. -/
theorem ne_size (hmember : g.member? id = some payload) : id ≠ ⟨g.nodes.size⟩ := by
  rintro rfl
  rw [member?_size] at hmember
  exact absurd hmember (by simp)

/-- Exchanging the value in the graph with the new node in it. -/
theorem Exchanged.superseded {between g' : Graph} (h : between.Exchanged old ⟨g.nodes.size⟩ g')
    (hold : g.member? old = some payload)
    (hsize : between.nodes.size = g.nodes.size + 1)
    (hmembers : ∀ id, between.member? id
      = if id = ⟨g.nodes.size⟩ then some found else g.member? id)
    (hreads : old ∉ found.edges) (hframed : g.Framed between) : g.Superseded old found g' := by
  refine ⟨h.kept, h.size.trans hsize, h.gone, ?_, ?_, ?_, hframed.trans h.framed⟩
  · have hnew : between.member? ⟨g.nodes.size⟩ = some found := by rw [hmembers, if_pos rfl]
    rw [h.member?_of_ne (ne_size hold).symm hnew]
    refine congrArg some (Payload.mapEdges_eq_self fun target htarget => swap_of_ne ?_)
    rintro rfl
    exact hreads htarget
  · intro id payload hne hmember
    exact h.member?_of_ne hne (by rw [hmembers, if_neg (ne_size hmember), hmember])
  · intro id payload hmember hne
    rw [h.member?] at hmember
    split at hmember
    · exact absurd hmember (by simp)
    · obtain ⟨payload', hmember', -⟩ := Option.map_eq_some_iff.mp hmember
      rw [hmembers, if_neg hne] at hmember'
      exact ⟨payload', hmember'⟩

/-- **A value can be exchanged for a new node** that reads values of lower rank. -/
theorem replace_created (h : g.Kept) (hranked : g.Ranked rank) (hold : g.member? old = some payload)
    (hvalue : payload.kind.isA .value = true) (hkind : found.kind.isA .value = true)
    (hunique : found.kind.isUnique = false)
    (hoffers : ∀ target ∈ found.inputEdges, g.Offers target .value)
    (hreads : ∀ target ∈ found.inputEdges, rank target < rank old) :
    (replace old ⟨g.nodes.size⟩).Ends (g.push found) fun r g' =>
      r = .ok ⟨g.nodes.size⟩ ∧ g.Superseded old found g' ∧ ∃ rank', g'.Ranked rank' := by
  have htwin : g.twin? found = none := by rw [twin?, if_neg (by simp [hunique])]
  obtain ⟨hresult, hmembers⟩ := attach_push h (fills_of_values hkind hoffers)
  rw [htwin, Option.getD_none] at hresult hmembers
  have hsize : (attach ⟨g.nodes.size⟩ (g.push found)).state.nodes.size = g.nodes.size + 1 := by
    rw [(attach_grown (h.push found) _).size, push, Array.size_push]
  have hne := (ne_size hold).symm
  have hlower : ∀ target ∈ found.inputEdges, target ≠ ⟨g.nodes.size⟩ ∧ rank target < rank old := by
    intro target htarget
    obtain ⟨offered, hoffered, -⟩ := hoffers target htarget
    exact ⟨ne_size hoffered, hreads target htarget⟩
  have hbound := hranked.bounded hold
  -- Nobody reads the new node yet, so it may have the rank of the value it is to be exchanged for.
  have hranked' := hranked.update h (rank old) (by omega) (by omega) (Or.inl (member?_size g))
    hmembers hlower
  have hends := replace_value (h.push found) (by rwa [member?_push]) hvalue hresult
    (by rw [hmembers, if_pos rfl]) hkind hranked' hne (by simp [hne.symm])
  refine hends.imp fun r g' hend => ?_
  obtain ⟨hr, hexchanged, hranked''⟩ := hend
  have hoffers' : ∀ target ∈ found.edges, g.Offers target .value := by
    rwa [Payload.edges_of_isValue hkind]
  refine ⟨hr, hexchanged.superseded hold hsize hmembers ?_
    (framed_attach_push hkind (fills_of_values hkind hoffers) hoffers'), _, hranked''⟩
  rw [Payload.edges_of_isValue hkind]
  intro hin
  exact absurd (hreads old hin) (Nat.lt_irrefl _)

/-! ## 4. Joining a unique value -/

/-- **The member `id` has a unique payload**, and everything else is as before. -/
structure Joined (g : Graph) (id : NodeId) (payload : Payload) (g' : Graph) : Prop where
  kept : g'.Kept
  size : g'.nodes.size = g.nodes.size + 1
  new : g'.member? id = some payload
  member? : ∀ {other payload'}, g.member? other = some payload' → g'.member? other = some payload'
  /-- If a member is new it is this one. -/
  only : ∀ {other payload'}, g'.member? other = some payload' → g.member? other = none →
    payload' = payload ∧ g.nodes.size ≤ other.index
  /-- It reads nothing, so its rank may be the lowest. -/
  ranked : ∀ {rank}, g.Ranked rank → g'.Ranked fun other => if other = id then 0 else rank other
  framed : g.Framed g'

/-- Adding a unique payload lets it join: it is a new node, or the member that has the payload, and
in either case no other member changes. -/
theorem add_joined (h : g.Kept) (hunique : payload.kind.isUnique = true) :
    (add payload).Ends g fun r g' => ∃ id, r = .ok id ∧ g.Joined id payload g' := by
  obtain ⟨hresult, hmembers⟩ := add_unique h hunique
  have hkept : (add payload g).state.Kept := attach_kept (h.push payload) _
  have hsize : (add payload g).state.nodes.size = g.nodes.size + 1 := by
    show (attach ⟨g.nodes.size⟩ (g.push payload)).state.nodes.size = _
    rw [(attach_grown (h.push payload) _).size, push, Array.size_push]
  have hmember : ∀ {id found}, g.member? id = some found →
      (add payload g).state.member? id = some found := by
    intro id found hfound
    rw [hmembers]
    split
    · rename_i heq
      cases hpooled : g.pooled? payload with
      | none =>
        rw [hpooled, Option.getD_none] at heq
        exact absurd heq (ne_size hfound)
      | some twin =>
        rw [hpooled, Option.getD_some] at heq
        rw [heq, (h.pooled?_eq_some_iff.mp hpooled).1] at hfound
        exact hfound
    · exact hfound
  refine ⟨_, hresult, hkept, hsize, by rw [hmembers, if_pos rfl], hmember, ?_,
    fun hranked => ?_, ?_⟩
  · intro id found hfound hnone
    rw [hmembers] at hfound
    split at hfound
    · rename_i heq
      refine ⟨(Option.some.inj hfound).symm, ?_⟩
      cases hpooled : g.pooled? payload with
      | none =>
        rw [heq, hpooled, Option.getD_none]
      | some twin =>
        rw [hpooled, Option.getD_some] at heq
        rw [heq, (h.pooled?_eq_some_iff.mp hpooled).1] at hnone
        exact absurd hnone (by simp)
    · rw [hnone] at hfound
      exact absurd hfound (by simp)
  · refine hranked.update h 0 (by omega) (by omega) (Or.inr (Nat.zero_le _)) hmembers ?_
    exact fun target htarget => absurd htarget (Payload.not_mem_inputEdges_of_isUnique hunique)
  · refine framed_attach_push (Kind.isA_value_of_isUnique hunique) ?_ ?_
    · simp [Payload.slots_of_isUnique hunique]
    · simp [Payload.edges_of_isUnique hunique]

end Graph

end BehaviorGraph
