/-
# Redirecting the edges of a node

Redirecting checks the new targets, attaches them one after the other, keeps the usages in step and
then overwrites one sort of edges of the owner.  Inputs and successors are treated alike: all the
argument needs to know is that the payload's slots are those of the sort and others, and that
assigning changes the former only (`Payload.IsSide`).

The usages are followed slot by slot.  Between two slots the owner is recorded once for each new
target of the slots already done and each old target of the slots still to come
(`count_foldl_movedUsers`), so removing an entry always finds one to remove.

What a target is asked for and what it becomes may differ, because a unique node that is attached
gives way to a member with its payload.  `Resolved` relates the two, and that is enough for the
family of a slot: the member that stands for a target has the kind of the target, and the kind was
checked.  So **whatever comes of redirecting, the records agree afterwards** (`retarget_kept`): a
refused target changes nothing, attaching keeps agreement, and so does overwriting the edges
(`kept_overwrite`).
-/
import BehaviorGraph.Proofs.Attaching
import BehaviorGraph.Proofs.Replacing
import Mathlib.Data.List.Forall2

namespace BehaviorGraph

/-! ## 1. One sort of edges -/

/-- The slots with the targets they are given. -/
def retargeted (changes : List (Slot × Option NodeId)) : List Slot :=
  changes.map fun change => change.1.withTarget change.2

/-- `slots` are the slots of one sort of edges, and `assign` overwrites their targets: the other
slots stay as they are. -/
def Payload.IsSide (payload : Payload) (slots : List Slot)
    (assign : List (Option NodeId) → Payload → Payload) : Prop :=
  ∃ others, payload.slots.Perm (slots ++ others) ∧ ∀ given, slots.length = given.length →
    (∀ change ∈ slots.zip given, change.1.Takes change.2) →
      (assign given payload).slots.Perm (retargeted (slots.zip given) ++ others) ∧
      (assign given payload).kind = payload.kind ∧
      (payload.kind.isUnique = true → assign given payload = payload)

/-- The inputs of a node are one side of it. -/
theorem Payload.isSide_inputs (payload : Payload) :
    payload.IsSide payload.inputSlots assignInputs := by
  refine ⟨payload.successorSlots, List.Perm.refl _, fun given hlen htakes =>
    ⟨?_, by simp, fun hunique => assignInputs_of_isUnique hunique given⟩⟩
  rw [slots, inputSlots_assignInputs, successorSlots_assignInputs,
    mapIdx_assign_of_takes hlen htakes]
  exact List.Perm.refl _

/-- The successors are the other. -/
theorem Payload.isSide_successors (payload : Payload) :
    payload.IsSide payload.successorSlots assignSuccessors := by
  refine ⟨payload.inputSlots, List.perm_append_comm, fun given hlen htakes =>
    ⟨?_, by simp, fun hunique => assignSuccessors_of_isUnique hunique given⟩⟩
  rw [slots, successorSlots_assignSuccessors, inputSlots_assignSuccessors,
    mapIdx_assign_of_takes hlen htakes]
  exact List.perm_append_comm

/-- How often slots point to a node. -/
theorem count_filterMap_target (slots : List Slot) (id : NodeId) :
    (slots.filterMap Slot.target).count id = (slots.map Slot.target).count (some id) := by
  induction slots with
  | nil => rfl
  | cons slot slots ih =>
    cases htarget : slot.target with
    | none => simp [htarget, ih]
    | some target => simp [htarget, List.count_cons, ih]

/-- Edges are counted by side. -/
theorem Payload.count_edges_of_perm {payload : Payload} {slots others : List Slot}
    (h : payload.slots.Perm (slots ++ others)) (id : NodeId) :
    payload.edges.count id
      = (slots.map Slot.target).count (some id) + (others.map Slot.target).count (some id) := by
  rw [edges, count_filterMap_target, (h.map Slot.target).count_eq, List.map_append,
    List.count_append]

namespace Graph

variable {g g' : Graph} {owner id : NodeId} {payload : Payload} {node : Node}

/-! ## 2. Following the usages -/

/-- The users of a node after one slot of the owner changed its target. -/
def movedUsers (owner id : NodeId) (users : List NodeId) (change : Slot × Option NodeId) :
    List NodeId :=
  if change.1.target = change.2 then users
  else
    let users := if change.1.target = some id then users.erase owner else users
    if change.2 = some id then users ++ [owner] else users

/-- A usage is added to the node it is one of, and to no other. -/
theorem node?_addUsage (g : Graph) (target user id : NodeId) :
    (g.addUsage target user).node? id = (g.node? id).map fun node =>
      { node with usages := if target = id then node.usages ++ [user] else node.usages } := by
  rw [addUsage, node?_modify]
  by_cases h : id = target
  · subst h
    simp
  · cases g.node? id <;> simp [h, Ne.symm h]

theorem node?_removeUsage (g : Graph) (target user id : NodeId) :
    (g.removeUsage target user).node? id = (g.node? id).map fun node =>
      { node with usages := if target = id then node.usages.erase user else node.usages } := by
  rw [removeUsage, node?_modify]
  by_cases h : id = target
  · subst h
    simp
  · cases g.node? id <;> simp [h, Ne.symm h]

/-- One slot that changes its target moves at most one entry, between the usages of its old target
and those of its new one. -/
theorem node?_moveUsage (owner : NodeId) (g : Graph) (change : Slot × Option NodeId) (id : NodeId) :
    (moveUsage owner g change).node? id = (g.node? id).map fun node =>
      { node with usages := movedUsers owner id node.usages change } := by
  obtain ⟨slot, target⟩ := change
  unfold moveUsage movedUsers
  by_cases hsame : slot.target = target
  · cases hnode : g.node? id <;> simp [hsame, hnode]
  · simp only [if_neg hsame]
    cases slot.target <;> cases target <;> cases hnode : g.node? id <;>
      simp [node?_addUsage, node?_removeUsage, hnode]

/-- All slots together: the usages of a node are followed through the changes, and nothing else of
it is touched. -/
theorem node?_foldl_moveUsage (owner : NodeId) (changes : List (Slot × Option NodeId)) (g : Graph)
    (id : NodeId) :
    (changes.foldl (moveUsage owner) g).node? id = (g.node? id).map fun node =>
      { node with usages := changes.foldl (movedUsers owner id) node.usages } := by
  induction changes generalizing g with
  | nil => cases hnode : g.node? id <;> simp [hnode]
  | cons change changes ih =>
    rw [List.foldl_cons, ih, node?_moveUsage]
    cases g.node? id <;> simp

/-- Usages are no matter of the pool. -/
theorem pool_moveUsage (owner : NodeId) (g : Graph) (change : Slot × Option NodeId) :
    (moveUsage owner g change).pool = g.pool := by
  obtain ⟨slot, target⟩ := change
  unfold moveUsage
  by_cases hsame : slot.target = target
  · simp only [if_pos hsame]
  · simp only [if_neg hsame]
    cases slot.target <;> cases target <;> rfl

theorem pool_foldl_moveUsage (owner : NodeId) (changes : List (Slot × Option NodeId)) (g : Graph) :
    (changes.foldl (moveUsage owner) g).pool = g.pool := by
  induction changes generalizing g with
  | nil => rfl
  | cons change changes ih => rw [List.foldl_cons, ih, pool_moveUsage]

/-- Other users are not concerned. -/
theorem count_foldl_movedUsers_of_ne {user : NodeId} (hne : user ≠ owner)
    (changes : List (Slot × Option NodeId)) (users : List NodeId) :
    (changes.foldl (movedUsers owner id) users).count user = users.count user := by
  induction changes generalizing users with
  | nil => rfl
  | cons change changes ih =>
    rw [List.foldl_cons, ih]
    unfold movedUsers
    split
    · rfl
    · simp only
      split <;> split <;>
        simp [List.count_append, List.count_erase_of_ne hne, Ne.symm hne]

/-- **The owner is recorded once for each slot that points to the node**, `rest` times for the slots
that are not among the changes. -/
theorem count_foldl_movedUsers (rest : Nat) (changes : List (Slot × Option NodeId))
    (users : List NodeId)
    (h : users.count owner = rest + (changes.map fun change => change.1.target).count (some id)) :
    (changes.foldl (movedUsers owner id) users).count owner
      = rest + (changes.map Prod.snd).count (some id) := by
  -- A slot that is done counts for `rest` in the next step, with its new target.
  induction changes generalizing users rest with
  | nil => simpa using h
  | cons change changes ih =>
    obtain ⟨slot, target⟩ := change
    rw [List.foldl_cons, List.map_cons, List.count_cons]
    have hnext : (movedUsers owner id users (slot, target)).count owner
        = (rest + if target == some id then 1 else 0)
          + (changes.map fun change => change.1.target).count (some id) := by
      rw [List.map_cons, List.count_cons] at h
      unfold movedUsers
      simp only
      -- Three cases: the slot keeps its target, it leaves the node, or it comes to it or passes it
      -- by.
      by_cases hsame : slot.target = target
      · rw [if_pos hsame, h, hsame]
        omega
      · rw [if_neg hsame]
        by_cases hold : slot.target = some id
        · have hnew : target ≠ some id := fun he => hsame (hold.trans he.symm)
          simp only [hold, if_pos, hnew, if_false, List.count_erase_self, h, beq_self_eq_true]
          simp [hnew]
        · by_cases hnew : target = some id
          · simp [hold, hnew, List.count_append, h]
            omega
          · simp [hold, hnew, h]
    rw [ih _ _ hnext]
    dsimp only
    omega

/-! ## 3. Attaching the new targets -/

/-- What became of one requested target: it was left alone, or a member of its kind stands for it.
-/
inductive Resolved (g g' : Graph) (change : Slot × Option NodeId) : Option NodeId → Prop where
  | kept (h : change.1.target = change.2 ∨ change.2 = none) : Resolved g g' change change.2
  | attached {target new : NodeId} {payload : Payload} (htarget : change.2 = some target)
    (hmember : g'.member? new = some payload) (hkind : g.kind? target = some payload.kind) :
    Resolved g g' change (some new)

/-- What a target was resolved to stays resolved while the graph grows. -/
theorem Resolved.mono {g₀ g₁ g₂ : Graph} {change : Slot × Option NodeId} {target : Option NodeId}
    (h : Resolved g g₁ change target) (hkind : ∀ id, g₀.kind? id = g.kind? id)
    (hgrown : g₁.Grown g₂) : Resolved g₀ g₂ change target := by
  cases h with
  | kept h => exact .kept h
  | attached htarget hmember hkind' =>
    exact .attached htarget (hgrown.member? hmember) (by rw [hkind, hkind'])

/-- **Attaching targets lets the graph grow and resolves each of them.** -/
theorem attachTargets_ends (h : g.Kept) (changes : List (Slot × Option NodeId)) :
    (attachTargets changes).Ends g fun r g' => g'.Kept ∧ g.Grown g' ∧
      ∀ targets, r = .ok targets → List.Forall₂ (Resolved g g') changes targets := by
  induction changes generalizing g with
  | nil =>
    refine ⟨h, Grown.refl g, fun targets hok => ?_⟩
    rw [← Except.ok.inj hok]
    exact List.Forall₂.nil
  | cons change changes ih =>
    obtain ⟨slot, target⟩ := change
    -- What follows the first target, wherever it left the graph.
    have hnext : ∀ {g₁ : Graph} {first : Option NodeId}, g₁.Kept → g.Grown g₁ →
        Resolved g g₁ (slot, target) first →
        (attachTargets changes >>= fun targets => pure (first :: targets)).Ends g₁ fun r g' =>
          g'.Kept ∧ g.Grown g' ∧ ∀ targets, r = .ok targets →
            List.Forall₂ (Resolved g g') ((slot, target) :: changes) targets := by
      intro g₁ first hkept hgrown hfirst
      rw [Run.ends_bind]
      refine (ih hkept).imp fun r g' hrest => ?_
      obtain ⟨hkept', hgrown', hresolved⟩ := hrest
      cases r with
      | error fault => exact ⟨hkept', hgrown.trans hgrown', fun _ hbad => absurd hbad (by simp)⟩
      | ok rest =>
        refine ⟨hkept', hgrown.trans hgrown', fun targets hok => ?_⟩
        rw [← Except.ok.inj hok]
        refine List.Forall₂.cons (hfirst.mono (fun _ => rfl) hgrown') ?_
        exact (hresolved rest rfl).imp fun change new hnew =>
          hnew.mono (fun id => (hgrown.kind? id).symm) (Grown.refl g')
    -- Only a target that is set and differs from that of its slot is attached.
    unfold attachTargets
    cases target with
    | none =>
      simp only
      rw [Run.ends_bind, Run.ends_pure]
      exact hnext h (Grown.refl g) (.kept (Or.inr rfl))
    | some id =>
      simp only
      by_cases hsame : slot.target = some id
      · rw [if_pos hsame, Run.ends_bind, Run.ends_pure]
        exact hnext h (Grown.refl g) (.kept (Or.inl hsame))
      · rw [if_neg hsame, Run.ends_bind, Run.ends_map]
        have hkept := attach_kept h id
        have hgrown := attach_grown h id
        unfold Run.Ends
        cases hresult : (attach id g).result with
        | error fault => exact ⟨hkept, hgrown, fun _ hbad => absurd hbad (by simp)⟩
        | ok new =>
          obtain ⟨payload, hmember, hkind⟩ := attach_member h hresult
          exact hnext hkept hgrown (.attached rfl hmember hkind)

/-! ## 4. Overwriting the edges -/

/-- The graph after the slots of the owner took their new targets. -/
def overwrite (g : Graph) (owner : NodeId) (slots : List Slot) (targets : List (Option NodeId))
    (assign : List (Option NodeId) → Payload → Payload) : Graph :=
  ((slots.zip targets).foldl (moveUsage owner) g).modify owner fun node =>
    { node with payload := assign targets node.payload }

/-- Overwriting changes the payload of the owner, and usages. -/
theorem node?_overwrite (g : Graph) (owner : NodeId) (slots : List Slot)
    (targets : List (Option NodeId)) (assign : List (Option NodeId) → Payload → Payload)
    (id : NodeId) :
    (g.overwrite owner slots targets assign).node? id = (g.node? id).map fun node =>
      { node with
        payload := if id = owner then assign targets node.payload else node.payload
        usages := (slots.zip targets).foldl (movedUsers owner id) node.usages } := by
  rw [overwrite, node?_modify, node?_foldl_moveUsage, node?_foldl_moveUsage]
  by_cases h : id = owner
  · subst h
    cases g.node? id <;> simp
  · cases g.node? id <;> simp [h]

/-- The members are those of before; the owner has its new payload. -/
theorem member?_overwrite {slots : List Slot} {targets : List (Option NodeId)}
    {assign : List (Option NodeId) → Payload → Payload} (howner : g.member? owner = some payload)
    (id : NodeId) :
    (g.overwrite owner slots targets assign).member? id
      = if id = owner then some (assign targets payload) else g.member? id := by
  obtain ⟨node, hnode, hstate, rfl⟩ := member?_eq_some_iff.mp howner
  unfold member?
  rw [node?_overwrite]
  by_cases h : id = owner
  · subst h
    simp [hnode, Node.isActive, hstate]
  · cases g.node? id <;> simp [h, Node.isActive]

/-- The usages of a node by the owner follow the edges the owner gets. -/
theorem count_movedUsers_owner (h : g.Kept) (howner : g.member? owner = some payload)
    {slots others : List Slot} {targets : List (Option NodeId)} {payload' : Payload}
    (hslots : payload.slots.Perm (slots ++ others))
    (hslots' : payload'.slots.Perm (retargeted (slots.zip targets) ++ others))
    (hlen : slots.length = targets.length) (hnode : g.node? id = some node) :
    ((slots.zip targets).foldl (movedUsers owner id) node.usages).count owner
      = payload'.edges.count id := by
  have hfst : (slots.zip targets).map (fun change => change.1.target) = slots.map Slot.target := by
    have hmap := List.map_map (f := Prod.fst) (g := Slot.target) (l := slots.zip targets)
    rwa [List.map_fst_zip (by omega), eq_comm] at hmap
  -- The slots of the other side count for `rest`: their targets stay.
  have hcount : ((slots.zip targets).foldl (movedUsers owner id) node.usages).count owner
      = (others.map Slot.target).count (some id)
        + ((slots.zip targets).map Prod.snd).count (some id) := by
    refine count_foldl_movedUsers _ _ _ ?_
    rw [h.counted hnode owner, weight_of_member? howner, Payload.count_edges_of_perm hslots, hfst]
    omega
  have hretargeted : (retargeted (slots.zip targets)).map Slot.target = targets := by
    simp only [retargeted, List.map_map, Function.comp_def, Slot.withTarget_target]
    exact List.map_snd_zip (by omega)
  rw [hcount, List.map_snd_zip (by omega), Payload.count_edges_of_perm hslots', hretargeted]
  omega

/-- **Overwriting one sort of edges keeps agreement**, if the slots take their new targets and are
filled by them as they have to be. -/
theorem kept_overwrite (h : g.Kept) (howner : g.member? owner = some payload) {slots : List Slot}
    {targets : List (Option NodeId)} {assign : List (Option NodeId) → Payload → Payload}
    (hside : payload.IsSide slots assign) (hlen : slots.length = targets.length)
    (htakes : ∀ change ∈ slots.zip targets, change.1.Takes change.2)
    (hfills : ∀ change ∈ slots.zip targets, g.Fills (change.1.withTarget change.2)) :
    (g.overwrite owner slots targets assign).Kept := by
  obtain ⟨others, hslots, hassign⟩ := hside
  obtain ⟨hslots', hkind, hfixed⟩ := hassign targets hlen htakes
  have hmembers : ∀ id, (g.overwrite owner slots targets assign).member? id
      = if id = owner then some (assign targets payload) else g.member? id :=
        member?_overwrite howner
  -- The owner keeps its kind, so it still offers what it did.
  have hoffers : ∀ {target family}, g.Offers target family →
      (g.overwrite owner slots targets assign).Offers target family := by
    rintro target family ⟨found, hfound, hfamily⟩
    by_cases htarget : target = owner
    · subst htarget
      rw [howner] at hfound
      obtain rfl := Option.some.inj hfound
      exact ⟨assign targets payload, by rw [hmembers, if_pos rfl], by rwa [hkind]⟩
    · exact ⟨found, by rw [hmembers, if_neg htarget, hfound], hfamily⟩
  -- What is left to show is agreement field by field: slots, usages, owners, the pool and its
  -- keys.
  refine h.of_update hmembers ?_ ?_ ?_ ?_ ?_
  · intro user payload' hmember' slot hslot
    have hbefore : g.Fills slot := by
      rw [hmembers] at hmember'
      by_cases huser : user = owner
      · rw [if_pos huser] at hmember'
        obtain rfl := Option.some.inj hmember'
        -- A slot of the owner has a new target, which fills it by assumption, or is one of the
        -- other side.
        rcases List.mem_append.mp (hslots'.mem_iff.mp hslot) with hnew | hother
        · obtain ⟨change, hchange, rfl⟩ := List.mem_map.mp hnew
          exact hfills change hchange
        · exact h.filled howner slot (hslots.mem_iff.mpr (List.mem_append_right _ hother))
      · rw [if_neg huser] at hmember'
        exact h.filled hmember' slot hslot
    exact hbefore.mono fun family target _ => hoffers
  · intro id node' hnode'
    rw [node?_overwrite] at hnode'
    obtain ⟨before, hbefore, rfl⟩ := Option.map_eq_some_iff.mp hnode'
    refine ⟨before, hbefore, fun user => ?_⟩
    by_cases huser : user = owner
    · subst huser
      rw [if_pos rfl]
      exact count_movedUsers_owner h howner hslots hslots' hlen hbefore
    · rw [if_neg huser]
      exact count_foldl_movedUsers_of_ne huser _ _
  · intro id node' hnode'
    rw [node?_overwrite] at hnode'
    obtain ⟨before, hbefore, rfl⟩ := Option.map_eq_some_iff.mp hnode'
    simpa using h.marked hbefore
  · intro payload' id
    have hpool : (g.overwrite owner slots targets assign).pool = g.pool := by
      rw [overwrite, pool_modify, pool_foldl_moveUsage]
    rw [hpool, h.pooled, hmembers]
    by_cases hid : id = owner
    · subst hid
      rw [if_pos rfl, howner]
      -- A unique payload has no edges to overwrite, and any other is not in the pool.
      by_cases hunique : payload.kind.isUnique = true
      · rw [hfixed hunique]
      · constructor
        · rintro ⟨hsame, hunique'⟩
          rw [Option.some.inj hsame] at hunique
          exact absurd hunique' hunique
        · rintro ⟨hsame, hunique'⟩
          rw [← Option.some.inj hsame, hkind] at hunique'
          exact absurd hunique' hunique
    · rw [if_neg hid]
  · rw [overwrite, pool_modify, pool_foldl_moveUsage]
    exact h.keys

/-! ## 5. The whole redirection -/

/-- Whether every changed target may fill its slot. -/
def checkTargets (g : Graph) (owner : NodeId) (changes : List (Slot × Option NodeId)) :
    Except Fault Unit :=
  changes.forM fun change =>
    if change.1.target = change.2 then .ok () else g.checkSlot owner change.1 change.2

/-- **All that can come of giving the slots of `owner` new targets**, as result and graph. -/
inductive Redirection (g : Graph) (owner : NodeId) (slots : List Slot)
    (targets : List (Option NodeId)) (assign : List (Option NodeId) → Payload → Payload) :
    Except Fault Bool → Graph → Prop where
  /-- A target may not fill its slot. -/
  | refused {fault : Fault} (hcheck : g.checkTargets owner (slots.zip targets) = .error fault) :
    Redirection g owner slots targets assign (.error fault) g
  /-- A target cannot be attached. -/
  | unattached {fault : Fault} (hcheck : g.checkTargets owner (slots.zip targets) = .ok ())
    (htargets : (attachTargets (slots.zip targets) g).result = .error fault) :
    Redirection g owner slots targets assign (.error fault)
      (attachTargets (slots.zip targets) g).state
  /-- Every slot has its target already. -/
  | unchanged {resolved : List (Option NodeId)}
    (hcheck : g.checkTargets owner (slots.zip targets) = .ok ())
    (htargets : (attachTargets (slots.zip targets) g).result = .ok resolved)
    (hsame : ∀ change ∈ slots.zip resolved, change.1.target = change.2) :
    Redirection g owner slots targets assign (.ok false) (attachTargets (slots.zip targets) g).state
  /-- The slots take their targets. -/
  | changed {resolved : List (Option NodeId)}
    (hcheck : g.checkTargets owner (slots.zip targets) = .ok ())
    (htargets : (attachTargets (slots.zip targets) g).result = .ok resolved)
    (hdiffers : ∃ change ∈ slots.zip resolved, change.1.target ≠ change.2) :
    Redirection g owner slots targets assign (.ok true)
      ((attachTargets (slots.zip targets) g).state.overwrite owner slots resolved assign)

/-- **Redirecting ends in one of these ways.** -/
theorem retarget_ends (g : Graph) (owner : NodeId) (slots : List Slot)
    (targets : List (Option NodeId)) (assign : List (Option NodeId) → Payload → Payload) :
    (retarget owner slots targets assign).Ends g (Redirection g owner slots targets assign) := by
  unfold retarget
  rw [Run.ends_bind, Run.ends_state]
  simp only
  rw [Run.ends_bind, Run.ends_ofExcept]
  have hdef : ((slots.zip targets).forM fun change =>
      if change.1.target = change.2 then Except.ok () else g.checkSlot owner change.1 change.2)
      = g.checkTargets owner (slots.zip targets) := rfl
  rw [hdef]
  cases hcheck : g.checkTargets owner (slots.zip targets) with
  | error fault => exact .refused hcheck
  | ok value =>
    simp only
    rw [Run.ends_bind]
    unfold Run.Ends
    cases htargets : (attachTargets (slots.zip targets) g).result with
    | error fault => exact .unattached hcheck htargets
    | ok resolved =>
      simp only
      split
      case isTrue hall =>
        refine .unchanged hcheck htargets fun change hchange => ?_
        exact of_decide_eq_true (List.all_eq_true.mp hall change hchange)
      case isFalse hall =>
        refine .changed hcheck htargets ?_
        simpa using hall

/-- What the check and the attaching of its target establish for one slot. -/
theorem Resolved.fills (h : g.Kept) (hgrown : g.Grown g') (howner : g.member? owner = some payload)
    {slot : Slot} (hslot : slot ∈ payload.slots) {target new : Option NodeId}
    (hresolved : Resolved g g' (slot, target) new)
    (hcheck : slot.target ≠ target → g.checkSlot owner slot target = .ok ()) :
    slot.Takes new ∧ g'.Fills (slot.withTarget new) := by
  have hfilled := h.filled howner slot hslot
  have hoffers : ∀ {id family}, g.Offers id family → g'.Offers id family :=
    fun ⟨found, hfound, hfamily⟩ => ⟨found, hgrown.member? hfound, hfamily⟩
  cases hresolved with
  | kept hsame =>
    dsimp only at hsame ⊢
    by_cases htarget : slot.target = target
    · subst htarget
      exact ⟨Payload.legal_of_mem_slots hslot, hfilled.mono fun _ _ _ => hoffers⟩
    · -- Then the slot is emptied, and the check has made sure that it may be.
      obtain rfl := hsame.resolve_left htarget
      have hoptional := Attachment.checkSlot_none_iff.mp (hcheck htarget)
      exact ⟨Or.inl hoptional, (fills_none rfl).mpr hoptional⟩
  | @attached id new found htarget hmember hkind =>
    dsimp only at htarget
    subst htarget
    -- The kind of what stands for `id` is the kind of `id`, which fills the slot or was checked.
    refine ⟨Or.inr rfl, (fills_some rfl).mpr ⟨found, hmember, ?_⟩⟩
    by_cases hsame : slot.target = some id
    · obtain ⟨before, hbefore, hfamily⟩ := (fills_some hsame).mp hfilled
      rw [kind?_of_member? hbefore] at hkind
      rwa [← Option.some.inj hkind]
    · obtain ⟨before, hbefore, -, hfamily⟩ := Attachment.checkSlot_some_iff.mp (hcheck hsame)
      have hbefore' : g.kind? id = some before.kind := by rw [Graph.kind?, hbefore, Option.map_some]
      rwa [← Option.some.inj (hbefore'.symm.trans hkind)]

/-- What the check and the attaching of the targets establish for the slots. -/
theorem fills_of_resolved (h : g.Kept) (hgrown : g.Grown g')
    (howner : g.member? owner = some payload)
    {slots : List Slot} (hslots : ∀ slot ∈ slots, slot ∈ payload.slots)
    {targets resolved : List (Option NodeId)} (hlen : slots.length = targets.length)
    (hcheck : g.checkTargets owner (slots.zip targets) = .ok ())
    (hresolved : List.Forall₂ (Resolved g g') (slots.zip targets) resolved) :
    slots.length = resolved.length ∧ ∀ change ∈ slots.zip resolved,
      change.1.Takes change.2 ∧ g'.Fills (change.1.withTarget change.2) := by
  induction slots generalizing targets resolved with
  | nil =>
    cases hresolved
    simp
  | cons slot slots ih =>
    cases targets with
    | nil => simp at hlen
    | cons target targets =>
      rw [List.zip_cons_cons] at hcheck hresolved
      obtain ⟨hfirst, hothers⟩ := List.forall_mem_cons.mp ((forM_eq_ok_iff _ _).mp hcheck)
      obtain ⟨hslot, hslots'⟩ := List.forall_mem_cons.mp hslots
      cases hresolved with
      | @cons _ new _ rest hnew hrest =>
        obtain ⟨hlen', hfills⟩ := ih hslots' (by simpa using hlen)
          ((forM_eq_ok_iff _ _).mpr hothers) hrest
        refine ⟨by simpa using hlen', ?_⟩
        rw [List.zip_cons_cons, List.forall_mem_cons]
        exact ⟨hnew.fills h hgrown howner hslot fun hne => (if_neg hne).symm.trans hfirst, hfills⟩

/-- **Redirecting one sort of edges of a member keeps agreement.** -/
theorem retarget_kept (h : g.Kept) (howner : g.member? owner = some payload) {slots : List Slot}
    {targets : List (Option NodeId)} {assign : List (Option NodeId) → Payload → Payload}
    (hside : payload.IsSide slots assign) (hlen : slots.length = targets.length) :
    (retarget owner slots targets assign).Ends g fun _ g' => g'.Kept := by
  refine (retarget_ends g owner slots targets assign).imp fun r g' hredirected => ?_
  obtain ⟨hkept, hgrown, hresolved⟩ := attachTargets_ends h (slots.zip targets)
  cases hredirected with
  | refused => exact h
  | unattached => exact hkept
  | unchanged => exact hkept
  | @changed resolved hcheck htargets =>
    have hslots : ∀ slot ∈ slots, slot ∈ payload.slots := fun slot hslot =>
      hside.choose_spec.1.mem_iff.mpr (List.mem_append_left _ hslot)
    obtain ⟨hlen', hfills⟩ :=
      fills_of_resolved h hgrown howner hslots hlen hcheck (hresolved resolved htargets)
    exact kept_overwrite hkept (hgrown.member? howner) hside hlen'
      (fun change hchange => (hfills change hchange).1)
      (fun change hchange => (hfills change hchange).2)

/-- An operation that starts by asking for a member fails at once or works on its payload. -/
theorem ends_onMember {m : Payload → Edit Bool} {Q : Except Fault Bool → Graph → Prop}
    (hinactive : ∀ fault, g.requireActive owner = .error fault → Q (.error fault) g)
    (hactive : ∀ payload, g.member? owner = some payload → (m payload).Ends g Q) :
    Run.Ends (do
      let g ← Run.state
      Run.ofExcept (g.requireActive owner)
      match g.payload? owner with
      | none => return false
      | some payload => m payload) g Q := by
  rw [Run.ends_bind, Run.ends_state]
  simp only
  rw [Run.ends_bind, Run.ends_ofExcept]
  cases hrequire : g.requireActive owner with
  | error fault => exact hinactive fault hrequire
  | ok value =>
    obtain ⟨payload, howner⟩ := requireActive_eq_ok_iff.mp hrequire
    simp only [payload?_of_member? howner]
    exact hactive payload howner

/-- **Redirecting either side of a node keeps agreement.** -/
theorem redirectAt_preserves {slots : Payload → List Slot}
    {assign : List (Option NodeId) → Payload → Payload}
    (hside : ∀ payload : Payload, payload.IsSide (slots payload) assign) (owner : NodeId)
    (f : Nat → Option NodeId → Option NodeId) :
    Run.Preserves Kept (redirectAt slots assign owner f) := fun _ h =>
  ends_onMember (fun _ _ => h) fun payload howner =>
    retarget_kept h howner (hside payload) (by simp)

end Graph

end BehaviorGraph
