/-
# What a replaced node hands over

A node that is replaced by another member hands over its users, and takes its own edges with it.
Replacing does this in two steps.  Moving the edges gives the new node the recorded edges of the
old one as they are, those among them that the old node has to itself included; deleting the old
node then takes back one entry for each edge it has.  Together (`node?_handover`): **its successor
loses every entry of the old node and keeps the others in order**, since the old node has exactly
as many entries as it has edges.

What remains is when it comes to that.  Between members there are two obstacles, a way back from
the new node to the old one and a slot the new node does not fit, and neither of them leaves a
trace (`Reachable.replacing_hands_over`).
-/
import BehaviorGraph.Proofs.Cycles
import BehaviorGraph.Proofs.Exchanging

namespace BehaviorGraph

namespace Graph

variable {g : Graph} {old new id user : NodeId} {payload found : Payload} {node : Node}

/-! ## 1. The recorded edges -/

/-- Erasing a user as often as it occurs leaves the other users, in order. -/
theorem iterate_erase_eq_filter {times : Nat} {users : List NodeId} (h : users.count user = times) :
    (fun users => users.erase user)^[times] users = users.filter fun other =>
      decide (other ≠ user) := by
  induction times generalizing users with
  | zero =>
    refine (List.filter_eq_self.mpr fun other hother => decide_eq_true ?_).symm
    rintro rfl
    exact List.count_eq_zero.mp h hother
  | succ times ih =>
    have hmem : user ∈ users := List.count_pos_iff.mp (by omega)
    obtain ⟨front, back, hfront, rfl, herase⟩ := List.exists_erase_eq hmem
    rw [Function.iterate_succ_apply, ih (by rw [List.count_erase_self]; omega), herase]
    simp

/-- The entries a member has in the usages of another node are as many as its edges to it. -/
theorem Kept.count_usages (h : g.Kept) (hmember : g.member? user = some payload)
    (hnode : g.node? id = some node) : (g.usages id).count user = payload.edges.count id := by
  have hcount := h.counted hnode user
  rw [weight_of_member? hmember] at hcount
  simpa [usages, hnode] using hcount

/-- A node after `old` handed over to `new`. -/
def handedNode (g : Graph) (old new id : NodeId) (node : Node) : Node where
  payload := if node.state = .active then node.payload.mapEdges (swap old new) else node.payload
  state := if id = old then .deleted else node.state
  member := if id = old then false else node.member
  usages := if id = old then [] else
    (if id = new then node.usages ++ g.usages old else node.usages).filter fun user =>
      decide (user ≠ old)

/-- What moving the edges leaves the payload of a node at. -/
theorem payload_handover (h : g.Kept) (hold : g.member? old = some payload)
    (hnode : g.node? id = some node) :
    (if id ∈ g.users old then node.payload.mapEdges (swap old new) else node.payload)
      = if node.state = .active then node.payload.mapEdges (swap old new) else node.payload := by
  obtain ⟨oldNode, holdNode, -, -⟩ := member?_eq_some_iff.mp hold
  by_cases hstate : node.state = .active
  · have hmember : g.member? id = some node.payload :=
      member?_eq_some_iff.mpr ⟨node, hnode, hstate, rfl⟩
    rw [if_pos hstate]
    by_cases huser : id ∈ g.users old
    · rw [if_pos huser]
    · rw [if_neg huser]
      refine (Payload.mapEdges_eq_self fun target htarget => swap_of_ne ?_).symm
      rintro rfl
      exact huser ((mem_users_iff h holdNode hmember).mpr htarget)
  · rw [if_neg hstate, if_neg]
    intro huser
    obtain ⟨used, hused⟩ := h.member?_of_mem_users holdNode huser
    rw [member?_eq_none_of_node? hnode hstate] at hused
    exact absurd hused (by simp)

/-- **What becomes of every node when one member hands over to another.** -/
theorem node?_handover (h : g.Kept) (hne : new ≠ old) (hold : g.member? old = some payload)
    (id : NodeId) :
    ((g.redirect old new).withdraw old (payload.mapEdges (swap old new))).node? id
      = (g.node? id).map (g.handedNode old new id) := by
  obtain ⟨oldNode, holdNode, -, -⟩ := member?_eq_some_iff.mp hold
  rw [node?_withdraw, node?_redirect hne, Option.map_map]
  cases hnode : g.node? id with
  | none => rfl
  | some node =>
    have husages : g.usages id = node.usages := by simp [usages, hnode]
    simp only [Option.map_some, Function.comp_apply, payload_handover h hold hnode,
      Payload.edges_mapEdges, count_map_swap hne, handedNode]
    by_cases hid : id = old
    · simp [hid]
    · simp only [if_neg hid]
      -- The entries that are taken back are all the entries of the old node.
      by_cases hnew : id = new
      · have hcount : (node.usages ++ g.usages old).count old = payload.edges.count new
            + payload.edges.count old := by
          rw [List.count_append, ← husages, h.count_usages hold hnode,
            h.count_usages hold holdNode, hnew]
        simp only [if_pos hnew, iterate_erase_eq_filter hcount]
      · have hcount : node.usages.count old = payload.edges.count id := by
          rw [← husages, h.count_usages hold hnode]
        simp only [if_neg hnew, iterate_erase_eq_filter hcount]

/-- The pool loses the entry of the old node, if it has one. -/
theorem pool_handover (h : g.Kept) (hold : g.member? old = some payload) :
    ((g.redirect old new).withdraw old (payload.mapEdges (swap old new))).pool.entries
      = g.pool.entries.filter fun entry => decide (entry.2 ≠ old) := by
  rw [pool_withdraw, pool_redirect, Payload.kind_mapEdges]
  by_cases hunique : payload.kind.isUnique = true
  · have hentry : g.pool.get? payload = some old :=
      h.keys.get?_eq_some_iff.mpr (h.pooled.mpr ⟨hold, hunique⟩)
    rw [if_pos hunique, Payload.mapEdges_of_isUnique hunique, unpool, if_pos hentry, Table.erase]
    refine List.filter_congr fun entry hmem => ?_
    -- Of its payload there is one entry, and it is the one of the old node.
    have hsame : entry.1 = payload ↔ entry.2 = old := by
      obtain ⟨hmember, hunique'⟩ := h.pooled.mp (show (entry.1, entry.2) ∈ g.pool.entries from hmem)
      constructor
      · intro heq
        rw [heq] at hmember
        exact h.unique_member hmember hold hunique
      · intro heq
        rw [heq, hold] at hmember
        exact (Option.some.inj hmember).symm
    simp [hsame]
  · rw [if_neg hunique]
    refine (List.filter_eq_self.mpr fun entry hmem => decide_eq_true ?_).symm
    intro heq
    obtain ⟨hmember, hunique'⟩ := h.pooled.mp (show (entry.1, entry.2) ∈ g.pool.entries from hmem)
    rw [heq, hold] at hmember
    exact hunique (Option.some.inj hmember ▸ hunique')

/-! ## 2. The handover -/

/-- **`old` handed over to `new`, and nothing else happened.** -/
structure HandedOver (g : Graph) (old new : NodeId) (g' : Graph) : Prop where
  /-- The old node is deleted and nobody uses it. -/
  gone : ∃ node, g'.node? old = some node ∧ node.state = .deleted ∧ node.member = false ∧
    node.usages = []
  /-- A member has the slots it had, with the new node in place of the old one. -/
  redirected : ∀ {id node}, g.node? id = some node → node.state = .active → id ≠ old → ∃ node',
    g'.node? id = some node' ∧ node'.state = .active ∧ node'.member = node.member ∧
      node'.payload = node.payload.mapEdges (swap old new) ∧
      node'.payload.slots = node.payload.slots.map (Slot.through (swap old new))
  /-- The new node has the users of both, the old node itself left out. -/
  received : g'.usages new = (g.usages new ++ g.usages old).filter fun user => decide (user ≠ old)
  /-- Every other node has lost the entries of the old node, and no others. -/
  released : ∀ {id}, id ≠ old → id ≠ new →
    g'.usages id = (g.usages id).filter fun user => decide (user ≠ old)
  /-- The pool has lost the entry of the old node, and no other. -/
  pool : g'.pool.entries = g.pool.entries.filter fun entry => decide (entry.2 ≠ old)
  /-- Who is neither of the two, has no edge to the old node as a member and none from it is the
  same as before. -/
  spared : ∀ {id}, id ≠ old → id ≠ new → (g.isActive id = true → old ∉ g.edges id) →
    id ∉ g.edges old →
    g'.node? id = g.node? id
  size : g'.nodes.size = g.nodes.size
  name : g'.name = g.name
  owner : g'.owner = g.owner

/-- The entries of the old node are gone, and its own are with the new one. -/
theorem usages_handover (h : g.Kept) (hne : new ≠ old) (hold : g.member? old = some payload)
    (hnew : g.member? new = some found) (hid : id ≠ old) :
    ((g.redirect old new).withdraw old (payload.mapEdges (swap old new))).usages id
      = (if id = new then g.usages id ++ g.usages old else g.usages id).filter fun user =>
        decide (user ≠ old) := by
  obtain ⟨oldNode, holdNode, -, -⟩ := member?_eq_some_iff.mp hold
  unfold usages
  rw [node?_handover h hne hold]
  cases hnode : g.node? id with
  | none =>
    have hother : id ≠ new := by
      rintro rfl
      obtain ⟨newNode, hnewNode, -⟩ := member?_eq_some_iff.mp hnew
      rw [hnode] at hnewNode
      exact absurd hnewNode (by simp)
    simp [hother]
  | some node => simp [handedNode, hid, usages, holdNode]

/-- A third node without an edge to the old one or from it stays as it is. -/
theorem handedNode_eq_self (h : g.Kept) (hold : g.member? old = some payload)
    (hnode : g.node? id = some node)
    (hid : id ≠ old) (hother : id ≠ new) (hfree : g.isActive id = true → old ∉ g.edges id)
    (hnot : id ∉ g.edges old) : g.handedNode old new id node = node := by
  have hpayload :
    (if node.state = .active then node.payload.mapEdges (swap old new) else node.payload)
      = node.payload := by
    split
    · rename_i hstate
      have hmember : g.member? id = some node.payload :=
        member?_eq_some_iff.mpr ⟨node, hnode, hstate, rfl⟩
      refine Payload.mapEdges_eq_self fun target htarget => swap_of_ne ?_
      rintro rfl
      exact hfree (isActive_iff.mpr ⟨_, hmember⟩) (edges_of_member? hmember ▸ htarget)
    · rfl
  have hkeeps : node.usages.filter (fun user => decide (user ≠ old)) = node.usages := by
    have hcount := h.count_usages hold hnode
    rw [edges_of_member? hold] at hnot
    rw [List.count_eq_zero_of_not_mem hnot] at hcount
    refine List.filter_eq_self.mpr fun user huser => decide_eq_true ?_
    rintro rfl
    exact List.count_eq_zero.mp hcount (by simpa [usages, hnode] using huser)
  rw [handedNode, hpayload, if_neg hid, if_neg hid, if_neg hid, if_neg hother, hkeeps]

/-- **When the edges have moved and the old node is withdrawn, it handed over.** -/
theorem handedOver (h : g.Kept) (hne : new ≠ old) (hold : g.member? old = some payload)
    (hnew : g.member? new = some found) :
    g.HandedOver old new ((g.redirect old new).withdraw old (payload.mapEdges (swap old new))) := by
  have hnodes := node?_handover h hne hold
  obtain ⟨oldNode, holdNode, -, -⟩ := member?_eq_some_iff.mp hold
  obtain ⟨hname, howner⟩ :=
    (g.redirect old new).name_owner_withdraw old (payload.mapEdges (swap old new))
  obtain ⟨hname', howner'⟩ := g.name_owner_redirect old new
  refine ⟨⟨_, by rw [hnodes, holdNode, Option.map_some], by simp [handedNode]⟩, ?_, ?_, ?_,
    pool_handover h hold, ?_, by rw [size_withdraw, size_redirect], hname.trans hname',
    howner.trans howner'⟩
  · intro id node hnode hstate hid
    refine ⟨_, by rw [hnodes, hnode, Option.map_some], ?_, ?_, ?_, ?_⟩
    all_goals simp [handedNode, hid, hstate, Payload.slots_mapEdges]
  · rw [usages_handover h hne hold hnew hne, if_pos rfl]
  · intro id hid hother
    rw [usages_handover h hne hold hnew hid, if_neg hother]
  · intro id hid hother hfree hnot
    rw [hnodes]
    cases hnode : g.node? id with
    | none => rfl
    | some node => rw [Option.map_some, handedNode_eq_self h hold hnode hid hother hfree hnot]

/-! ## 3. When it comes to that -/

/-- **A node suits every slot that has the other as its target.** -/
def Suits (g : Graph) (old new : NodeId) : Prop :=
  ∀ {user payload slot}, g.member? user = some payload → slot ∈ payload.slots →
    slot.target = some old →
    g.isA new slot.family = true

/-- What a failed check of a list found, it found at a member of the list. -/
theorem exists_of_forM_eq_error {ε α : Type} {check : α → Except ε Unit} {list : List α} {fault : ε}
    (h : list.forM check = .error fault) : ∃ a ∈ list, check a = .error fault := by
  induction list with
  | nil => exact absurd h (by simp [pure, Except.pure])
  | cons a list ih =>
    cases ha : check a with
    | error first =>
      rw [List.forM, ha] at h
      exact ⟨a, List.mem_cons_self, ha.trans h⟩
    | ok value =>
      rw [List.forM, ha] at h
      obtain ⟨b, hb, hcheck⟩ := ih h
      exact ⟨b, List.mem_cons_of_mem a hb, hcheck⟩

/-- A check of all users that fails names a slot that is not suited. -/
theorem misfit_of_forM_eq_error {kind : Kind} {fault : Fault} (h : g.Kept)
    (hold : g.member? old = some payload)
    (hcheck : (g.users old).forM (g.checkReplacement old kind) = .error fault) :
    ∃ user found slot, g.member? user = some found ∧ slot ∈ found.slots ∧ slot.target = some old ∧
      kind.isA slot.family = false ∧ fault = .typeMismatch user slot.name slot.family kind := by
  obtain ⟨oldNode, holdNode, -, -⟩ := member?_eq_some_iff.mp hold
  obtain ⟨user, huser, hfault⟩ := exists_of_forM_eq_error hcheck
  obtain ⟨found, hfound⟩ := h.member?_of_mem_users holdNode huser
  rw [checkReplacement, payload?_of_member? hfound] at hfault
  obtain ⟨slot, hslot, hslotFault⟩ := exists_of_forM_eq_error hfault
  split at hslotFault
  · rename_i hboth
    simp only [Bool.and_eq_true, decide_eq_true_eq, Bool.not_eq_true'] at hboth
    obtain ⟨htarget, hmisfit⟩ := hboth
    cases hslotFault
    exact ⟨user, found, slot, hfound, hslot, htarget, hmisfit, rfl⟩
  · exact absurd hslotFault (by simp)

/-- **The ways in which one member is replaced by another.** -/
theorem Kept.replace_members (h : g.Kept) (hold : g.member? old = some payload)
    (hnew : g.member? new = some found) (hne : new ≠ old) :
    (g.reaches new old = true ∧ (replace old new g).result = .error (.selfReplacement old new) ∧
      (replace old new g).state = g) ∨
    (g.reaches new old = false ∧ ∃ fault,
      (g.users old).forM (g.checkReplacement old found.kind) = .error fault ∧
      (replace old new g).result = .error fault ∧ (replace old new g).state = g) ∨
    (g.reaches new old = false ∧
      (g.users old).forM (g.checkReplacement old found.kind) = .ok () ∧
      (replace old new g).result = .ok new ∧
      (replace old new g).state = (g.redirect old new).withdraw old
        (payload.mapEdges (swap old new))) := by
  obtain ⟨hattached, hsame⟩ := attach_of_isActive (isActive_iff.mpr ⟨found, hnew⟩)
  have hends := replace_ends h old new
  unfold Run.Ends at hends
  revert hends
  generalize (replace old new g).result = result
  generalize (replace old new g).state = state
  intro hends
  cases hends with
  | inactive hinactive =>
    rw [requireActive_eq_ok_iff.mpr ⟨payload, hold⟩] at hinactive
    exact absurd hinactive (by simp)
  | unattached hold' hfault =>
    rw [hattached] at hfault
    exact absurd hfault (by simp)
  | same hold' hok =>
    rw [hattached] at hok
    exact absurd (Except.ok.inj hok) hne
  | reached hold' hok hne' hreach =>
    rw [hattached] at hok
    obtain rfl := Except.ok.inj hok
    rw [hsame] at hreach ⊢
    exact .inl ⟨hreach, rfl, rfl⟩
  | misfit hold' hok hne' hreach hfound hcheck =>
    rw [hattached] at hok
    obtain rfl := Except.ok.inj hok
    rw [hsame] at hreach hfound hcheck ⊢
    rw [hnew] at hfound
    obtain rfl := Option.some.inj hfound
    exact .inr (.inl ⟨hreach, _, hcheck, rfl, rfl⟩)
  | moved hold' hok hne' hreach hfound hcheck =>
    rw [hattached] at hok
    obtain rfl := Except.ok.inj hok
    rw [hsame] at hreach hfound hcheck ⊢
    rw [hnew] at hfound
    rw [hold] at hold'
    obtain rfl := Option.some.inj hfound
    obtain rfl := Option.some.inj hold'
    exact .inr (.inr ⟨hreach, hcheck, rfl, rfl⟩)

/-- **Replacing one active node of a reachable graph by another.**  If the old node cannot be
reached from the new one and the new one suits every slot with the old one as its target, the
answer is the new node and the old one handed over to it.  If the old node can be reached that is
the fault, and if only a slot is not suited a type mismatch at such a slot is; neither fault leaves
a trace. -/
theorem Reachable.replacing_hands_over (h : g.Reachable) (hold : g.isActive old = true)
    (hnew : g.isActive new = true) (hne : new ≠ old) :
    (¬ Relation.ReflTransGen (fun user target => target ∈ g.edges user) new old → g.Suits old new →
      (replace old new g).result = .ok new ∧ g.HandedOver old new (replace old new g).state) ∧
    (Relation.ReflTransGen (fun user target => target ∈ g.edges user) new old →
      (replace old new g).result = .error (.selfReplacement old new) ∧
      (replace old new g).state = g) ∧
    (¬ Relation.ReflTransGen (fun user target => target ∈ g.edges user) new old →
      ¬ g.Suits old new →
      (∃ user payload slot kind, g.member? user = some payload ∧ slot ∈ payload.slots ∧
        slot.target = some old ∧ g.kind? new = some kind ∧ kind.isA slot.family = false ∧
        (replace old new g).result = .error (.typeMismatch user slot.name slot.family kind)) ∧
      (replace old new g).state = g) := by
  have hkept := h.kept
  obtain ⟨payload, hold⟩ := isActive_iff.mp hold
  obtain ⟨found, hnew⟩ := isActive_iff.mp hnew
  obtain ⟨oldNode, holdNode, -, -⟩ := member?_eq_some_iff.mp hold
  simp only [← reaches_eq_true_iff]
  rcases hkept.replace_members hold hnew hne with
    ⟨hreach, hresult, hstate⟩ | ⟨hreach, fault, hcheck, hresult, hstate⟩
      | ⟨hreach, hcheck, hresult, hstate⟩
  · exact ⟨fun hapart => absurd hreach hapart, fun _ => ⟨hresult, hstate⟩, fun hapart =>
      absurd hreach hapart⟩
  · obtain ⟨user, used, slot, huser, hslot, htarget, hmisfit, rfl⟩ :=
      misfit_of_forM_eq_error hkept hold hcheck
    refine ⟨fun _ hsuits => ?_, fun hback => ?_, fun _ _ => ⟨?_, hstate⟩⟩
    · have hsuited := hsuits huser hslot htarget
      rw [isA_of_member? hnew, hmisfit] at hsuited
      exact absurd hsuited (by simp)
    · rw [hreach] at hback
      exact absurd hback (by simp)
    · exact ⟨user, used, slot, found.kind, huser, hslot, htarget, kind?_of_member? hnew,
        hmisfit, hresult⟩
  · refine ⟨fun _ _ => ⟨hresult, ?_⟩, fun hback => ?_, fun _ hmisfit => absurd ?_ hmisfit⟩
    · rw [hstate]
      exact handedOver hkept hne hold hnew
    · rw [hreach] at hback
      exact absurd hback (by simp)
    · intro user used slot huser hslot htarget
      rw [isA_of_member? hnew]
      exact fits_of_forM_eq_ok hkept holdNode hcheck huser slot hslot htarget

/-- A product that reads a sum twice, the sum reading a constant and, since it was redirected,
itself; and an end. -/
def selfReading : Graph :=
  ([.add (.const (.ofInt 1 (.uint 8))), .add (.readReg "A" (.uint 8)),
    .add (.builtInCall [⟨0⟩, ⟨1⟩] .add (.uint 8)), .add (.builtInCall [⟨2⟩, ⟨2⟩] .mul (.uint 8)),
    .redirectInputs ⟨2⟩ (fun place old => if place = 1 then some ⟨2⟩ else old), .add (.instrEnd [])]
      : List Move).foldl (fun g move => move.after g) (empty "f")

/-- The sum hands over to the constant, which is left with the product, twice, and without the sum;
it cannot take the place of the constant, nor the end its own. -/
theorem replacing_hands_over_selfReading :
    selfReading.HandedOver ⟨2⟩ ⟨0⟩ (replace ⟨2⟩ ⟨0⟩ selfReading).state ∧
    selfReading.usages ⟨0⟩ = [⟨2⟩] ∧ selfReading.usages ⟨2⟩ = [⟨3⟩, ⟨3⟩, ⟨2⟩] ∧
    (replace ⟨2⟩ ⟨0⟩ selfReading).state.usages ⟨0⟩ = [⟨3⟩, ⟨3⟩] ∧
    (replace ⟨0⟩ ⟨2⟩ selfReading).result = .error (.selfReplacement ⟨0⟩ ⟨2⟩) ∧
    (replace ⟨2⟩ ⟨4⟩ selfReading).state = selfReading := by
  have hgraph : selfReading =
      { name := "f"
        nodes :=
          #[⟨.const (.ofInt 1 (.uint 8)), .active, true, [⟨2⟩]⟩,
            ⟨.readReg "A" (.uint 8), .active, true, []⟩,
          ⟨.builtInCall [⟨0⟩, ⟨2⟩] .add (.uint 8), .active, true, [⟨3⟩, ⟨3⟩, ⟨2⟩]⟩,
          ⟨.builtInCall [⟨2⟩, ⟨2⟩] .mul (.uint 8), .active, true, []⟩,
            ⟨.instrEnd [], .active, true, []⟩]
        pool := ⟨[(.const (.ofInt 1 (.uint 8)), ⟨0⟩)]⟩ } := by cbv
  have hreachable : selfReading.Reachable := reachable_foldl "f" _
  have hsuits : selfReading.Suits ⟨2⟩ ⟨0⟩ := by
    intro user payload slot huser hslot htarget
    have hone : selfReading.member? ⟨0⟩ = some (.const (.ofInt 1 (.uint 8))) := by rw [hgraph]; rfl
    have hsum : selfReading.node? ⟨2⟩
        = some ⟨.builtInCall [⟨0⟩, ⟨2⟩] .add (.uint 8), .active, true, [⟨3⟩, ⟨3⟩, ⟨2⟩]⟩ := by
          rw [hgraph]; rfl
    have hcheck : (selfReading.users ⟨2⟩).forM (selfReading.checkReplacement ⟨2⟩ .const)
        = .ok () := by
      rw [hgraph]; cbv
    rw [isA_of_member? hone]
    exact fits_of_forM_eq_ok hreachable.kept hsum hcheck huser slot hslot htarget
  have hmisfit : ¬ selfReading.Suits ⟨2⟩ ⟨4⟩ := by
    intro hsuits
    have hproduct : selfReading.member? ⟨3⟩ = some (.builtInCall [⟨2⟩, ⟨2⟩] .mul (.uint 8)) := by
      rw [hgraph]; rfl
    have hslot : Slot.required "args" .value ⟨2⟩
        ∈ (Payload.builtInCall [⟨2⟩, ⟨2⟩] .mul (.uint 8)).slots := by decide
    have hsuited := hsuits hproduct hslot rfl
    have hend : selfReading.isA ⟨4⟩ .value = false := by rw [hgraph]; rfl
    exact absurd (hend.symm.trans hsuited) (by simp)
  have hactive : ∀ index < 5, selfReading.isActive ⟨index⟩ = true := by
    rw [hgraph]
    decide
  obtain ⟨hmoves, -, -⟩ := hreachable.replacing_hands_over
    (hactive 2 (by decide)) (hactive 0 (by decide)) (by decide)
  obtain ⟨-, hback, -⟩ := hreachable.replacing_hands_over
    (hactive 0 (by decide)) (hactive 2 (by decide)) (by decide)
  obtain ⟨-, -, hbad⟩ := hreachable.replacing_hands_over
    (hactive 2 (by decide)) (hactive 4 (by decide)) (by decide)
  simp only [← reaches_eq_true_iff, Bool.not_eq_true] at hmoves hback hbad
  refine ⟨(hmoves ?_ hsuits).2, by rw [hgraph]; rfl, by rw [hgraph]; rfl, ?_, (hback ?_).1,
    (hbad ?_ hmisfit).2⟩
  all_goals rw [hgraph]; cbv

end Graph

end BehaviorGraph
