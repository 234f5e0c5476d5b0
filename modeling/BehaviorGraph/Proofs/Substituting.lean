/-
# A substitution takes all edges at once

A substitution redirects one member after the other, the inputs of each before its successors, and
looks each target up in the graph as it is by then.  **What comes of it is one simultaneous
substitution all the same** (`Graph.Reachable.substituting_at_once`), whatever chains and swaps the
substitution has.  It needs that the substitution leads to members (`Substitution.Lands`).  Then

* nothing is attached, so that giving the slots of a member new targets changes that member's
  payload and no other (`retarget_to_members`, `Recast`);
* a look-up finds what it found at first, for it reads at most the name of a parameter, and no
  target takes part in that (`Recast.get?_eq`);
* every member has its turn once, so no new target is sent on (`Substitution.redirectAll_ends`).
-/
import BehaviorGraph.Proofs.Framing
import BehaviorGraph.Proofs.Positions
import BehaviorGraph.Proofs.Retargeting

namespace BehaviorGraph

/-! ## 1. One sort of edges after the other -/

/-- Slots take the targets they have when these are sent elsewhere. -/
theorem Slot.forall₂_takes_map {slots : List Slot} (h : ∀ slot ∈ slots, slot.Legal)
    (f : NodeId → NodeId) :
    List.Forall₂ Slot.Takes slots ((slots.map Slot.target).map (Option.map f)) := by
  rw [List.map_map, List.forall₂_map_right_iff, List.forall₂_same]
  exact fun slot hslot => Slot.takes_map (h slot hslot) f

namespace Payload

variable {payload : Payload} {f : NodeId → NodeId}

/-- Send the target of every input that is set through `f`. -/
def mapInputs (f : NodeId → NodeId) (payload : Payload) : Payload :=
  payload.assignInputs (payload.inputs.map (Option.map f))

/-- Send the target of every successor that is set through `f`. -/
def mapSuccessors (f : NodeId → NodeId) (payload : Payload) : Payload :=
  payload.assignSuccessors (payload.successors.map (Option.map f))

@[simp] theorem successorSlots_mapInputs (f : NodeId → NodeId) (payload : Payload) :
    (payload.mapInputs f).successorSlots = payload.successorSlots := successorSlots_assignInputs _ _

/-- **The inputs and then the successors are all the edges.** -/
theorem mapSuccessors_mapInputs (f : NodeId → NodeId) (payload : Payload) :
    (payload.mapInputs f).mapSuccessors f = payload.mapEdges f := by
  rw [mapSuccessors, successors, successorSlots_mapInputs]
  rfl

theorem kind_bare (payload : Payload) : payload.bare.kind = payload.kind := by
  cases payload <;> rfl

/-- The name of a parameter. -/
def paramName? : Payload → Option String
  | param name _ => some name
  | _ => none

theorem paramName?_bare (payload : Payload) : payload.bare.paramName? = payload.paramName? := by
  cases payload <;> rfl

theorem bare_mapInputs (f : NodeId → NodeId) (payload : Payload) :
    (payload.mapInputs f).bare = payload.bare :=
  payload.bare_assignInputs _

/-- Without their targets all payloads are the same if those that are changed are. -/
theorem bare_ite {p : NodeId → Prop} [DecidablePred p] {remake : Payload → Payload}
    (h : ∀ payload, (remake payload).bare = payload.bare) (id : NodeId) (payload : Payload) :
    (if p id then remake payload else payload).bare = payload.bare := by
  split
  · exact h payload
  · rfl

theorem bare_mapEdges (f : NodeId → NodeId) (payload : Payload) :
    (payload.mapEdges f).bare = payload.bare := by
  rw [mapEdges, bare_assignSuccessors, bare_assignInputs]

/-- A payload changes if a target of either sort does. -/
theorem mapEdges_ne_self_iff : payload.mapEdges f ≠ payload ↔
    payload.inputs.map (Option.map f) ≠ payload.inputs ∨
      payload.successors.map (Option.map f) ≠ payload.successors := by
  rw [← inputs_mapEdges, ← successors_mapEdges, ← not_and_or, ne_eq, not_iff_not]
  exact ⟨fun hsame => by simp [hsame], fun ⟨hinputs, hsuccessors⟩ =>
    eq_of_bare (bare_mapEdges f payload) hinputs hsuccessors⟩

/-- A payload changes with its inputs, or else with its successors. -/
theorem mapEdges_ne_self_iff_steps : payload.mapEdges f ≠ payload ↔
    payload.mapInputs f ≠ payload ∨ (payload.mapInputs f).mapSuccessors f
      ≠ payload.mapInputs f := by
  rw [mapSuccessors_mapInputs]
  by_cases hsame : payload.mapInputs f = payload
  · simp [hsame]
  · refine iff_of_true (fun hall => hsame ?_) (.inl hsame)
    rw [mapInputs, ← inputs_mapEdges, hall, assignInputs_inputs]

end Payload

/-- A look-up tries the identity and then the name of a parameter. -/
theorem Substitution.get?_eq_or (s : Substitution) (g : Graph) (target : NodeId) : s.get? g target
    = (s.nodes.get? target).or (((g.payload? target).bind Payload.paramName?).bind
      s.params.get?) := by
  unfold get?
  cases s.nodes.get? target with
  | some new => rfl
  | none =>
    cases g.payload? target with
    | none => rfl
    | some payload => cases payload <;> rfl

namespace Graph

variable {g g' g'' : Graph} {id owner target : NodeId} {payload : Payload} {node : Node}
  {f f' : NodeId → Payload → Payload}

/-! ## 2. Members with other payloads -/

/-- **Each member has the payload that `f` makes of the one it had**, and nothing else became of
the nodes. -/
structure Recast (f : NodeId → Payload → Payload) (g g' : Graph) : Prop where
  kept : g'.Kept
  size : g'.nodes.size = g.nodes.size
  members : ∀ id, g'.member? id = (g.member? id).map (f id)
  others : ∀ {id node}, g.node? id = some node → node.state ≠ .active → g'.node? id = some node

namespace Recast

theorem refl (h : g.Kept) : Recast (fun _ payload => payload) g g :=
  ⟨h, rfl, fun _ => by simp, fun hnode _ => hnode⟩

theorem trans (h : Recast f g g') (h' : Recast f' g' g'') :
    Recast (fun id payload => f' id (f id payload)) g g'' := by
  refine ⟨h'.kept, h'.size.trans h.size, fun id => ?_, fun hnode hstate =>
    h'.others (h.others hnode hstate) hstate⟩
  rw [h'.members, h.members, Option.map_map]
  rfl

/-- Only what `f` makes of the payloads of members counts. -/
theorem congr (h : Recast f g g')
    (hsame : ∀ {id payload}, g.member? id = some payload → f id payload = f' id payload) :
    Recast f' g g' :=
  ⟨h.kept, h.size, fun id => (h.members id).trans (Option.map_congr fun _ hmember => hsame hmember),
    h.others⟩

section Owner

variable {remake remake' : Payload → Payload}

theorem congr_owner (h : Recast (fun id payload => if id = owner then remake payload
    else payload) g g')
    (howner : g.member? owner = some payload) (hsame : remake payload = remake' payload) :
    Recast (fun id payload => if id = owner then remake' payload else payload) g g' := by
  refine h.congr fun {id found} hmember => ?_
  split
  · rename_i hid
    subst hid
    obtain rfl := Option.some.inj (howner.symm.trans hmember)
    exact hsame
  · rfl

/-- To make a member the payload it has is to change nothing. -/
theorem of_fixed (h : g.Kept) (howner : g.member? owner = some payload)
    (hfixed : remake payload = payload) :
    Recast (fun id payload => if id = owner then remake payload else payload) g g :=
  congr_owner ((refl h).congr fun _ => (ite_self _).symm) howner hfixed.symm

end Owner

theorem isActive_eq (h : Recast f g g') (id : NodeId) : g'.isActive id = g.isActive id := by
  rw [isActive_eq_isSome_member?, isActive_eq_isSome_member?, h.members, Option.isSome_map]

variable (hbare : ∀ id payload, (f id payload).bare = payload.bare)
include hbare

/-- Without their targets all payloads are what they were. -/
theorem bare_eq (h : Recast f g g') (id : NodeId) :
    (g'.payload? id).map Payload.bare = (g.payload? id).map Payload.bare := by
  cases hnode : g.node? id with
  | none =>
    have hnode' : g'.node? id = none := by
      rw [node?_eq_none_iff] at hnode ⊢
      rwa [h.size]
    simp [payload?, hnode, hnode']
  | some node =>
    by_cases hactive : node.state = .active
    · have hmember : g.member? id = some node.payload :=
        member?_eq_some_iff.mpr ⟨node, hnode, hactive, rfl⟩
      have hmember' : g'.member? id = some (f id node.payload) := by
        rw [h.members, hmember, Option.map_some]
      rw [payload?_of_member? hmember, payload?_of_member? hmember', Option.map_some,
        Option.map_some, hbare]
    · simp [payload?, hnode, h.others hnode hactive]

theorem isA_eq (h : Recast f g g') (id : NodeId) (family : Family) :
    g'.isA id family = g.isA id family := by
  have hkind : ∀ g : Graph, g.kind? id = ((g.payload? id).map Payload.bare).map Payload.kind := by
    intro g
    cases hnode : g.node? id <;> simp [kind?, payload?, hnode, Node.kind, Payload.kind_bare]
  rw [isA, isA, hkind, h.bare_eq hbare, ← hkind]

/-- **What a substitution uses instead of a node stays the same.** -/
theorem get?_eq (h : Recast f g g') (s : Substitution) (target : NodeId) :
    s.get? g' target = s.get? g target := by
  have hname : ∀ g : Graph, (g.payload? target).bind Payload.paramName?
      = ((g.payload? target).map Payload.bare).bind Payload.paramName? := by
    intro g
    cases g.payload? target <;> simp [Payload.paramName?_bare]
  rw [s.get?_eq_or, s.get?_eq_or, hname, h.bare_eq hbare, ← hname]

end Recast

/-! ## 3. The slots of one member -/

/-- The nodes that `f` sends the targets of the slots to are of the families that the slots ask
for. -/
def Suited (g : Graph) (f : NodeId → NodeId) (slots : List Slot) : Prop :=
  ∀ slot ∈ slots, ∀ target, slot.target = some target → g.isA (f target) slot.family = true

theorem Recast.suited_iff (h : Recast f g g')
    (hbare : ∀ id payload, (f id payload).bare = payload.bare)
    {image : NodeId → NodeId} {slots : List Slot} :
      g'.Suited image slots ↔ g.Suited image slots := by
  simp only [Suited, h.isA_eq hbare]

theorem size_overwrite (g : Graph) (owner : NodeId) (slots : List Slot)
    (targets : List (Option NodeId)) (assign : List (Option NodeId) → Payload → Payload) :
    (g.overwrite owner slots targets assign).nodes.size = g.nodes.size := by
  have hsame : ∀ id, (g.overwrite owner slots targets assign).node? id = none ↔
      g.node? id = none := by
    intro id
    rw [node?_overwrite, Option.map_eq_none_iff]
  simp only [node?_eq_none_iff] at hsame
  exact Nat.le_antisymm ((hsame ⟨_⟩).mpr (Nat.le_refl _)) ((hsame ⟨_⟩).mp (Nat.le_refl _))

/-- Overwriting the edges of a member makes it another payload. -/
theorem recast_overwrite (h : g.Kept) (howner : g.member? owner = some payload) {slots : List Slot}
    {targets : List (Option NodeId)} {assign : List (Option NodeId) → Payload → Payload}
    (hkept' : (g.overwrite owner slots targets assign).Kept) :
    Recast (fun id payload => if id = owner then assign targets payload else payload) g
      (g.overwrite owner slots targets assign) := by
  refine ⟨hkept', size_overwrite _ _ _ _ _, fun id => ?_, fun {id node} hnode hinactive => ?_⟩
  · rw [member?_overwrite howner]
    split
    · rename_i hid
      rw [hid, howner, Option.map_some]
    · rw [Option.map_id']
  · have hid : id ≠ owner := by
      rintro rfl
      rw [member?_eq_none_of_node? hnode hinactive] at howner
      exact absurd howner (by simp)
    have hnode' := node?_overwrite g owner slots targets assign id
    rw [hnode, Option.map_some, if_neg hid] at hnode'
    rw [hnode', h.node_eq_of_inactive hkept' hnode hnode' hinactive rfl rfl]

/-- **What making `owner` another payload comes to**: it succeeds if the new targets are `suited`,
changes nothing else, and tells whether the payload changed. -/
structure Remade (g : Graph) (owner : NodeId) (payload : Payload) (suited : Prop)
    (remake : Payload → Payload) (r : Except Fault Bool) (g' : Graph) : Prop where
  ok_iff : (∃ changed, r = .ok changed) ↔ suited
  changed : ∀ changed, r = .ok changed → changed = decide (remake payload ≠ payload)
  recast : ∀ changed, r = .ok changed →
    Recast (fun id payload => if id = owner then remake payload else payload) g g'

namespace Remade

variable {suited : Prop} {remake : Payload → Payload} {fault : Fault}

theorem of_error (h : ¬ suited) : Remade g owner payload suited remake (.error fault) g' :=
  ⟨iff_of_false (by simp) h, fun _ hok => absurd hok (by simp), fun _ hok => absurd hok (by simp)⟩

theorem not_suited (h : Remade g owner payload suited remake (.error fault) g') : ¬ suited := by
  rw [← h.ok_iff]
  simp

end Remade

section Side

variable {slots : List Slot} {side others : Payload → List Slot}
  {assign : List (Option NodeId) → Payload → Payload} {f : NodeId → NodeId}

/-- The slots of a member pass the check of their new targets, if these are members, exactly if
they suit. -/
theorem checkTargets_eq_ok_iff (h : g.Kept) (howner : g.member? owner = some payload)
    (hslots : ∀ slot ∈ slots, slot ∈ payload.slots)
    (hmembers : ∀ slot ∈ slots, ∀ target, slot.target = some target →
      g.isActive (f target) = true) :
    g.checkTargets owner (slots.zip ((slots.map Slot.target).map (Option.map f))) = .ok () ↔
      g.Suited f slots := by
  rw [List.map_map, ← List.map_prod_left_eq_zip, checkTargets, forM_eq_ok_iff, List.forall_mem_map]
  refine forall₂_congr fun slot hslot => ?_
  simp only [Function.comp_apply]
  cases htarget : slot.target with
  | none => simp
  | some target =>
    obtain ⟨new, hnew⟩ := isActive_iff.mp (hmembers slot hslot target htarget)
    obtain ⟨node, hnode, hactive, rfl⟩ := member?_eq_some_iff.mp hnew
    simp only [Option.map_some, Option.some.injEq, forall_eq', isA_of_member? hnew]
    by_cases hsame : target = f target
    · -- A slot that keeps its target is filled by it.
      obtain ⟨found, hfound, hfamily⟩ :=
        (fills_some htarget).mp (h.filled howner slot (hslots slot hslot))
      obtain rfl := Option.some.inj (hnew.symm.trans (hsame ▸ hfound))
      exact iff_of_true (if_pos hsame) hfamily
    · rw [if_neg hsame, Attachment.checkSlot_some_iff]
      constructor
      · rintro ⟨found, hfound, -, hfamily⟩
        obtain rfl := Option.some.inj (hnode.symm.trans hfound)
        exact hfamily
      · exact fun hfamily => ⟨node, hnode, by simp [hactive], hfamily⟩

/-- What is to be attached is one of the nodes that the targets are sent to. -/
theorem isActive_of_requested
    (hmembers : ∀ slot ∈ slots, ∀ target, slot.target = some target →
      g.isActive (f target) = true) :
    ∀ target ∈ requested (slots.zip ((slots.map Slot.target).map (Option.map f))),
      g.isActive target = true := by
  intro target hin
  obtain ⟨change, hchange, hnew⟩ := List.mem_filterMap.mp hin
  rw [List.map_map, ← List.map_prod_left_eq_zip] at hchange
  obtain ⟨slot, hslot, rfl⟩ := List.mem_map.mp hchange
  rw [Option.ite_none_left_eq_some, Function.comp_apply, Option.map_eq_some_iff] at hnew
  obtain ⟨-, old, hold, rfl⟩ := hnew
  exact hmembers slot hslot old hold

/-- **Sending one sort of targets of a member to members makes the member another payload.** -/
theorem retarget_to_members (h : g.Kept) (howner : g.member? owner = some payload)
    (hside : payload.IsSide (side payload) assign) (hview : payload.Viewed side others assign)
    (hmembers : ∀ slot ∈ side payload, ∀ target, slot.target = some target →
      g.isActive (f target) = true) :
    (retarget owner (side payload) (((side payload).map Slot.target).map (Option.map f))
      assign).Ends g
      (Remade g owner payload (g.Suited f (side payload)) fun payload =>
        assign (((side payload).map Slot.target).map (Option.map f)) payload) := by
  have hslots : ∀ slot ∈ side payload, slot ∈ payload.slots := fun slot hslot =>
    hside.choose_spec.1.mem_iff.mpr (List.mem_append_left _ hslot)
  have hcheck_iff := checkTargets_eq_ok_iff h howner hslots hmembers
  have hactive := isActive_of_requested hmembers
  have hself_iff := hview.assign_eq_self_iff
    (Slot.forall₂_takes_map (fun slot hslot => Payload.legal_of_mem_slots (hslots slot hslot)) f)
  have hlen :
      (side payload).length = (((side payload).map Slot.target).map (Option.map f)).length := by
        simp
  generalize htargets : ((side payload).map Slot.target).map (Option.map f) = targets at *
  obtain ⟨hresult, hstate⟩ := attachTargets_of_members h hactive
  rw [List.map_snd_zip (by omega)] at hresult
  have hends : (retarget owner (side payload) targets assign).Ends g fun r g' =>
      g'.Kept ∧ Redirection g owner (side payload) targets assign r g' :=
    ⟨retarget_kept h howner hside hlen, retarget_ends g owner _ targets assign⟩
  refine hends.imp fun r g' ⟨hkept', hredirected⟩ => ?_
  cases hredirected with
  | refused hbad =>
    refine .of_error fun hsuited => ?_
    rw [hcheck_iff.mpr hsuited] at hbad
    exact absurd hbad (by simp)
  | unattached _ hbad =>
    rw [hresult] at hbad
    exact absurd hbad (by simp)
  | unchanged hcheck hgot hsame =>
    obtain rfl := Except.ok.inj (hresult.symm.trans hgot)
    have hself := hself_iff.mpr ((forall_zip_target_eq_iff hlen).mp hsame)
    refine ⟨iff_of_true ⟨_, rfl⟩ (hcheck_iff.mp hcheck), fun changed hok => ?_, fun _ _ => ?_⟩
    · rw [← Except.ok.inj hok, htargets, eq_comm, decide_eq_false_iff_not]
      exact not_not.mpr hself
    · rw [hstate]
      exact .of_fixed h howner (htargets.symm ▸ hself)
  | changed hcheck hgot hdiffers =>
    obtain rfl := Except.ok.inj (hresult.symm.trans hgot)
    rw [hstate] at hkept' ⊢
    refine ⟨iff_of_true ⟨_, rfl⟩ (hcheck_iff.mp hcheck), fun changed hok => ?_, fun _ _ => ?_⟩
    · rw [← Except.ok.inj hok, htargets, eq_comm, decide_eq_true_iff]
      intro hself
      obtain ⟨change, hchange, hne⟩ := hdiffers
      exact hne ((forall_zip_target_eq_iff hlen).mpr (hself_iff.mp hself) change hchange)
    · exact (recast_overwrite h howner hkept').congr_owner howner (by rw [htargets])

theorem redirectAt_to_members (h : g.Kept) (howner : g.member? owner = some payload)
    (hside : payload.IsSide (side payload) assign) (hview : payload.Viewed side others assign)
    (hmembers : ∀ slot ∈ side payload, ∀ target, slot.target = some target →
      g.isActive (f target) = true) :
    (redirectAt side assign owner fun _ => Option.map f).Ends g
      (Remade g owner payload (g.Suited f (side payload)) fun payload =>
        assign (((side payload).map Slot.target).map (Option.map f)) payload) :=
  (ends_redirectAt_iff howner).mpr (retarget_to_members h howner hside hview hmembers)

end Side

end Graph

/-! ## 4. One member -/

namespace Substitution

variable {s : Substitution} {g g' : Graph} {id owner target : NodeId} {payload : Payload}
  {ids done : List NodeId}

/-- The node that an edge to `target` leads to under the substitution. -/
def image (s : Substitution) (g : Graph) (target : NodeId) : NodeId := (s.get? g target).getD target

theorem apply_eq (s : Substitution) (g : Graph) : s.apply g = Option.map (s.image g) := rfl

/-- **The substitution leads to members.** -/
structure Lands (s : Substitution) (g : Graph) : Prop where
  nodes : ∀ target new, s.nodes.get? target = some new → g.isActive new = true
  params : ∀ name new, s.params.get? name = some new → g.isActive new = true

theorem Lands.of_entries (hnodes : (s.nodes.entries.all fun entry => g.isActive entry.2) = true)
    (hparams : (s.params.entries.all fun entry => g.isActive entry.2) = true) : s.Lands g :=
  ⟨fun _ _ hnew => List.all_eq_true.mp hnodes _ (Table.mem_entries_of_get? hnew),
    fun _ _ hnew => List.all_eq_true.mp hparams _ (Table.mem_entries_of_get? hnew)⟩

theorem Lands.isActive_image (h : s.Lands g) (hactive : g.isActive target = true) :
    g.isActive (s.image g target) = true := by
  rw [image, get?_eq_or]
  cases hnew : s.nodes.get? target with
  | some new => exact h.nodes _ _ hnew
  | none =>
    rw [Option.none_or]
    cases hparam : ((g.payload? target).bind Payload.paramName?).bind s.params.get? with
    | none => exact hactive
    | some new =>
      obtain ⟨name, -, hfound⟩ := Option.bind_eq_some_iff.mp hparam
      exact h.params _ _ hfound

/-- Under the substitution every slot of a member leads to a member. -/
theorem Lands.isActive_image_of_slot (h : s.Lands g) (hkept : g.Kept)
    (howner : g.member? owner = some payload) :
    ∀ slot ∈ payload.slots, ∀ target, slot.target = some target →
      g.isActive (s.image g target) = true := by
  intro slot hslot target htarget
  obtain ⟨found, hfound, -⟩ := (Graph.fills_some htarget).mp (hkept.filled howner slot hslot)
  exact h.isActive_image (Graph.isActive_iff.mpr ⟨found, hfound⟩)

section Recast

variable {f : NodeId → Payload → Payload} (hrecast : g.Recast f g')
include hrecast

theorem Lands.recast (h : s.Lands g) : s.Lands g' :=
  ⟨fun _ _ hnew => (hrecast.isActive_eq _).trans (h.nodes _ _ hnew),
    fun _ _ hnew => (hrecast.isActive_eq _).trans (h.params _ _ hnew)⟩

theorem image_recast (hbare : ∀ id payload, (f id payload).bare = payload.bare) :
    s.image g' = s.image g :=
  funext fun target => by rw [image, image, hrecast.get?_eq hbare]

end Recast

/-- **Redirecting one member takes all its edges through the substitution**, if its slots are
suited. -/
theorem redirectNode_ends (h : g.Kept) (hlands : s.Lands g)
    (howner : g.member? owner = some payload) :
    (s.redirectNode owner).Ends g
      (g.Remade owner payload (g.Suited (s.image g) payload.slots)
        (Payload.mapEdges (s.image g))) := by
  have hleads := hlands.isActive_image_of_slot h howner
  have hsuited : g.Suited (s.image g) payload.slots ↔
      g.Suited (s.image g) payload.inputSlots ∧ g.Suited (s.image g) payload.successorSlots :=
    List.forall_mem_append
  unfold redirectNode
  rw [Run.ends_bind, Run.ends_state]
  simp only
  rw [Run.ends_bind, apply_eq]
  have hfirst : (Graph.redirectInputs owner (Option.map (s.image g))).Ends g
      (g.Remade owner payload (g.Suited (s.image g) payload.inputSlots)
        (Payload.mapInputs (s.image g))) :=
    Graph.redirectAt_to_members h howner payload.isSide_inputs payload.viewed_inputs
      fun slot hslot => hleads slot (List.mem_append_left _ hslot)
  refine hfirst.imp fun r g₁ hinputs => ?_
  cases r with
  | error fault => exact .of_error fun hall => hinputs.not_suited (hsuited.mp hall).1
  | ok inputs =>
    have hrecast := hinputs.recast inputs rfl
    have hbare := Payload.bare_ite (p := (· = owner)) (Payload.bare_mapInputs (s.image g))
    have howner₁ : g₁.member? owner = some (payload.mapInputs (s.image g)) := by
      rw [hrecast.members, howner, Option.map_some, if_pos rfl]
    simp only
    rw [Run.ends_bind, Run.ends_state]
    simp only
    rw [Run.ends_bind, apply_eq, image_recast hrecast hbare]
    have hsecond : (Graph.redirectSuccessors owner (Option.map (s.image g))).Ends g₁
        (g₁.Remade owner (payload.mapInputs (s.image g))
          (g₁.Suited (s.image g) (payload.mapInputs (s.image g)).successorSlots)
          (Payload.mapSuccessors (s.image g))) := by
      refine Graph.redirectAt_to_members hrecast.kept howner₁ (Payload.isSide_successors _)
        (Payload.viewed_successors _) fun slot hslot target htarget => ?_
      rw [Payload.successorSlots_mapInputs] at hslot
      rw [hrecast.isActive_eq]
      exact hleads slot (List.mem_append_right _ hslot) target htarget
    refine hsecond.imp fun r g₂ hsuccessors => ?_
    rw [Payload.successorSlots_mapInputs, hrecast.suited_iff hbare] at hsuccessors
    cases r with
    | error fault => exact .of_error fun hall => hsuccessors.not_suited (hsuited.mp hall).2
    | ok successors =>
      refine ⟨iff_of_true ⟨_, rfl⟩
        (hsuited.mpr ⟨hinputs.ok_iff.mp ⟨_, rfl⟩, hsuccessors.ok_iff.mp ⟨_, rfl⟩⟩),
        fun changed hdone => ?_, fun changed _ => ?_⟩
      · rw [← Except.ok.inj hdone, hinputs.changed _ rfl, hsuccessors.changed _ rfl,
          ← Bool.decide_or, decide_eq_decide]
        exact Payload.mapEdges_ne_self_iff_steps.symm
      · refine (hrecast.trans (hsuccessors.recast _ rfl)).congr fun {id found} _ => ?_
        split
        · exact Payload.mapSuccessors_mapInputs _ _
        · rfl

/-! ## 5. All members, one after the other -/

/-- Whether a member gets other targets. -/
def changes (s : Substitution) (g : Graph) (id : NodeId) : Bool :=
  decide ((g.member? id).map (Payload.mapEdges (s.image g)) ≠ g.member? id)

theorem changes_of_member? (howner : g.member? owner = some payload) :
    s.changes g owner = decide (payload.mapEdges (s.image g) ≠ payload) := by
  rw [changes, howner, Option.map_some, decide_eq_decide, ne_eq, Option.some.injEq]

/-- **Redirecting members one after the other takes the edges of each through the substitution that
`g` has**, if those of `done` had their turn and the others did not.  It succeeds exactly if all
their slots are suited. -/
theorem redirectAll_ends (hlands : s.Lands g) (hnodup : (done ++ ids).Nodup)
    (hmembers : ∀ id ∈ ids, ∃ payload, g.member? id = some payload)
    (h : g.Recast (fun id payload => if id ∈ done then payload.mapEdges (s.image g)
      else payload) g') :
    (s.redirectAll ids).Ends g' fun r g'' =>
      ((∃ count, r = .ok count) ↔ ∀ id ∈ ids, ∀ payload, g.member? id = some payload →
        g.Suited (s.image g) payload.slots) ∧
      ∀ count, r = .ok count → count = (ids.filter (s.changes g)).length ∧
        g.Recast (fun id payload => if id ∈ done ++ ids then payload.mapEdges (s.image g)
          else payload) g'' := by
  induction ids generalizing done g' with
  | nil =>
    rw [List.append_nil, redirectAll, Run.ends_pure]
    exact ⟨iff_of_true ⟨0, rfl⟩ (by simp), fun count hok => ⟨(Except.ok.inj hok).symm, h⟩⟩
  | cons id rest ih =>
    have hbare := Payload.bare_ite (p := (· ∈ done)) (Payload.bare_mapEdges (s.image g))
    obtain ⟨payload, howner⟩ := hmembers id List.mem_cons_self
    have hfresh : id ∉ done := fun hin =>
      (List.nodup_append.mp hnodup).2.2 id hin id List.mem_cons_self rfl
    have howner' : g'.member? id = some payload := by
      rw [h.members, howner, Option.map_some, if_neg hfresh]
    rw [List.append_cons] at hnodup
    rw [redirectAll, Run.ends_bind, Run.ends_state]
    simp only
    rw [if_pos (Graph.isActive_iff.mpr ⟨payload, howner'⟩), Run.ends_bind]
    refine (redirectNode_ends h.kept (hlands.recast h) howner').imp fun r g₁ hnode => ?_
    rw [image_recast h hbare, h.suited_iff hbare] at hnode
    cases r with
    | error fault =>
      exact ⟨iff_of_false (by simp) fun hall =>
        hnode.not_suited (hall id List.mem_cons_self payload howner),
        fun _ hok => absurd hok (by simp)⟩
    | ok changed =>
      have hrecast :
        g.Recast (fun other payload => if other ∈ done ++ [id] then payload.mapEdges (s.image g)
          else payload) g₁ := by
        refine (h.trans (hnode.recast _ rfl)).congr fun {other found} _ => ?_
        by_cases hid : other = id
        · subst hid
          simp [hfresh]
        · simp [hid]
      have hchanged : changed = s.changes g id := by
        rw [hnode.changed _ rfl, changes_of_member? howner]
      simp only
      rw [Run.ends_bind]
      refine (ih hnodup (fun other hin => hmembers other (List.mem_cons_of_mem _ hin)) hrecast).imp
        fun r g₂ ⟨hok_iff, hok⟩ => ?_
      have hhead : ∀ found, g.member? id = some found → g.Suited (s.image g) found.slots := by
        intro found hfound
        obtain rfl := Option.some.inj (howner.symm.trans hfound)
        exact hnode.ok_iff.mp ⟨_, rfl⟩
      rw [List.forall_mem_cons, and_iff_right hhead, ← hok_iff]
      cases r with
      | error fault => exact ⟨iff_of_false (by simp) (by simp), fun _ hok => absurd hok (by simp)⟩
      | ok count =>
        obtain ⟨hcount, hdone⟩ := hok count rfl
        rw [← List.append_cons] at hdone
        refine ⟨iff_of_true ⟨_, rfl⟩ ⟨_, rfl⟩, fun total htotal => ⟨?_, hdone⟩⟩
        rw [← Except.ok.inj htotal, hchanged, hcount, List.filter_cons]
        split <;> simp

/-! ## 6. The whole graph -/

/-- **Every edge of a member of `g` went through the substitution at once**, which changed `count`
members.  Nothing else happened to the nodes. -/
structure AtOnce (s : Substitution) (g g' : Graph) (count : Nat) : Prop where
  size : g'.nodes.size = g.nodes.size
  /-- A member still is one, and only the targets of its slots may be others. -/
  members : ∀ {id node}, g.node? id = some node → node.state = .active → ∃ node',
    g'.node? id = some node' ∧
    node'.state = .active ∧ node'.payload.bare = node.payload.bare ∧
    node'.payload.inputs = node.payload.inputs.map (s.apply g) ∧
    node'.payload.successors = node.payload.successors.map (s.apply g)
  others : ∀ {id node}, g.node? id = some node → node.state ≠ .active → g'.node? id = some node
  count : count = (g.members.filter fun id =>
    decide (g'.inputs id ≠ g.inputs id ∨ g'.successors id ≠ g.successors id)).length

/-- What it comes to that every member had its turn. -/
theorem atOnce_of_recast {count : Nat} (hcount : count = (g.members.filter (s.changes g)).length)
    (h : g.Recast (fun _ payload => payload.mapEdges (s.image g)) g') : s.AtOnce g g' count := by
  refine ⟨h.size, fun {id node} hnode hactive => ?_, h.others,
    hcount.trans (congrArg List.length ?_)⟩
  · have hmember := h.members id
    rw [Graph.member?_eq_some_iff.mpr ⟨node, hnode, hactive, rfl⟩, Option.map_some] at hmember
    obtain ⟨node', hnode', hactive', hpayload⟩ := Graph.member?_eq_some_iff.mp hmember
    refine ⟨node', hnode', hactive', ?_, ?_, ?_⟩ <;> rw [hpayload]
    · exact Payload.bare_mapEdges _ _
    · exact Payload.inputs_mapEdges _ _
    · exact Payload.successors_mapEdges _ _
  · refine List.filter_congr fun id hin => ?_
    obtain ⟨payload, howner⟩ := Graph.mem_members_iff.mp hin
    have howner' : g'.member? id = some (payload.mapEdges (s.image g)) := by
      rw [h.members, howner, Option.map_some]
    rw [changes_of_member? howner, decide_eq_decide, Payload.mapEdges_ne_self_iff]
    simp only [Graph.inputs, Graph.successors, Graph.payload?_of_member? howner,
      Graph.payload?_of_member? howner', Payload.inputs_mapEdges, Payload.successors_mapEdges]

end Substitution

/-- **A substitution that leads to members takes all edges of a reachable graph at once**, or meets
a fault: it succeeds exactly if what it leads to is of the family that the slot asks for, for every
slot of a member.  Every slot then has what the substitution makes of its target in the graph as it
was, or nothing if it had nothing, and the answer is the number of the members with a slot that
changed. -/
theorem Graph.Reachable.substituting_at_once {g : Graph} (h : g.Reachable) {s : Substitution}
    (hlands : s.Lands g) :
    s.redirectGraph.Ends g fun r g' =>
      ((∃ count, r = .ok count) ↔ ∀ id payload, g.member? id = some payload →
        ∀ slot ∈ payload.slots,
        ∀ target, slot.target = some target →
          g.isA ((s.get? g target).getD target) slot.family = true) ∧
      ∀ count, r = .ok count → s.AtOnce g g' count := by
  have hnodup : ([] ++ g.members).Nodup := nodup_members g
  have hmembers : ∀ id ∈ g.members, ∃ payload, g.member? id = some payload :=
    fun id => mem_members_iff.mp
  have hstart :
      Recast (fun id payload => if id ∈ [] then payload.mapEdges (s.image g) else payload) g g :=
    (Recast.refl h.kept).congr fun _ => by simp
  have hrun := Substitution.redirectAll_ends hlands hnodup hmembers hstart
  unfold Substitution.redirectGraph
  rw [Run.ends_bind, Run.ends_state]
  refine hrun.imp fun r g' ⟨hok_iff, hok⟩ => ⟨?_, fun count hdone => ?_⟩
  · rw [hok_iff]
    exact ⟨fun hall id payload hmember => hall id (mem_members_iff.mpr ⟨payload, hmember⟩)
      payload hmember,
      fun hall id _ => hall id⟩
  · obtain ⟨hcount, hrecast⟩ := hok count hdone
    refine Substitution.atOnce_of_recast hcount (hrecast.congr fun {id payload} hmember => ?_)
    exact if_pos (mem_members_iff.mpr ⟨payload, hmember⟩)

/-- Two nodes are swapped, and the third parameter leads to one of them and no further.  The name
of the first is overruled by its identity. -/
theorem Graph.substituting_at_once_swap :
    let g :=
      ([.add (.param "x" (.uint 8)), .add (.param "y" (.uint 8)), .add (.param "z" (.uint 8)),
      .add (.funcCall [⟨0⟩, ⟨1⟩, ⟨2⟩] "h" (.uint 8)), .add (.ret ⟨3⟩)] : List Move).foldl
        (fun g move => move.after g) (empty "f")
    let s : Substitution :=
      ⟨Table.ofList [(⟨0⟩, ⟨1⟩), (⟨1⟩, ⟨0⟩)], Table.ofList [("x", ⟨2⟩), ("z", ⟨0⟩)]⟩
    s.Lands g ∧ (s.redirectGraph g).result = .ok 1 ∧ s.AtOnce g (s.redirectGraph g).state 1 ∧
    (s.redirectGraph g).state.inputs ⟨3⟩ = [some ⟨1⟩, some ⟨0⟩, some ⟨0⟩] :=
  ⟨.of_entries (by cbv) (by cbv), by cbv,
    ((reachable_foldl "f" _).substituting_at_once (.of_entries (by cbv) (by cbv))).2 1
      (by cbv), by cbv⟩

end BehaviorGraph
