/-
# What a fault leaves behind

An operation that meets a fault does not undo what it did before.  What it may have done before is
to attach nodes, and a node that was attached is never detached again, so a change of this sort is
never hidden by a later one (`Advanced`).

Attaching changes the graph when it leaves the first node.  Until then it only goes down, each time
to the first target that is no member yet.  `Blocked` says that **a fault is met on this way
down**, and `attach_cases` that otherwise the graph has changed.  The other operations fail before
they attach anything, or while they attach, or right after: that makes the condition for each of
them.

So the argument has two halves for every operation.  If the condition holds the walk of the source
is followed down to the fault and no step on the way writes (`walk_of_blocked`); if it does not, a
node is left, and from there on the graph differs from the one in the beginning whatever happens
(`walk_leaves`, `walk_advances`).
-/
import BehaviorGraph.Proofs.Histories
import BehaviorGraph.Proofs.Positions

namespace BehaviorGraph

namespace Graph

variable {g g' g'' : Graph} {id : NodeId} {payload : Payload} {node : Node} {fault : Fault}
  {path : List NodeId}

/-! ## 1. Changes that stay -/

/-- A node that was detached is so no longer. -/
def Advanced (g g' : Graph) : Prop :=
  ∃ id node node', g.node? id = some node ∧ node.state = .detached ∧
    g'.node? id = some node' ∧ node'.state ≠ .detached

/-- A graph that advanced is another one. -/
theorem Advanced.ne (h : g.Advanced g') : g' ≠ g := by
  rintro rfl
  obtain ⟨id, node, node', hnode, hstate, hnode', hstate'⟩ := h
  rw [hnode] at hnode'
  obtain rfl := Option.some.inj hnode'
  exact hstate' hstate

/-- What advanced stays so when nodes age. -/
theorem Advanced.trans_ages (h : g.Advanced g') (hages : g'.Ages g'') : g.Advanced g'' := by
  obtain ⟨id, node, node', hnode, hstate, hnode', hstate'⟩ := h
  obtain ⟨node'', hnode'', haged⟩ := hages id node' hnode'
  exact ⟨id, node, node'', hnode, hstate, hnode'', haged.settled hstate'⟩

/-! ## 2. The way down -/

/-- **Attaching `id` meets `fault` on the way down**, when the nodes of `path` were entered before:
entering `id` fails, or it succeeds and the way on from its first target that is no member is
blocked. -/
inductive Blocked (g : Graph) : List NodeId → NodeId → Fault → Prop where
  | here {path : List NodeId} {id : NodeId} {fault : Fault}
    (h : (⟨g, path, Table.empty⟩ : Attachment).enter id = .error fault) : Blocked g path id fault
  | deeper {path : List NodeId} {id next : NodeId} {fault : Fault} {payload : Payload}
    (h : (⟨g, path, Table.empty⟩ : Attachment).enter id = .ok (some payload))
    (hnext : payload.edges.find? (fun target => !g.isActive target) = some next)
    (hdeeper : Blocked g (id :: path) next fault) : Blocked g path id fault

namespace Attachment

variable {tasks rest : List (Task NodeId)}

/-- Before anything is left only members have nothing to do. -/
theorem isActive_of_enter (h : (⟨g, path, Table.empty⟩ : Attachment).enter id = .ok none) :
    g.isActive id = true := by
  rcases enter_eq_ok h with ⟨-, ⟨rep, hrep⟩ | ⟨-, hmember⟩⟩ | ⟨node, hbad, -⟩
  · rw [Table.get?_empty] at hrep
    exact absurd hrep (by simp)
  · exact isActive_iff.mpr hmember
  · exact absurd hbad (by simp)

/-- The invariant of a walk passes by members as the walk itself does. -/
theorem Walking.skip_members {targets : List NodeId}
    (hwalking : Walking g (targets.map .enter ++ rest) ⟨g, path, Table.empty⟩)
    (h : ∀ target ∈ targets, g.isActive target = true) :
    Walking g rest ⟨g, path, Table.empty⟩ := by
  induction targets with
  | nil => exact hwalking
  | cons target targets ih =>
    exact ih (hwalking.skip (enter_of_isActive (h target (by simp)))).1
      fun other hother => h other (List.mem_cons_of_mem target hother)

/-- Nodes still to be left are in the arena. -/
theorem Planned.lt_size {a : Attachment} {soon : List NodeId} (h : a.Planned soon tasks) :
    ∀ id ∈ leaves tasks, id.index < a.graph.nodes.size := by
  induction tasks generalizing soon with
  | nil => simp [leaves]
  | cons task rest ih =>
    cases task with
    | enter id => exact ih h
    | leave id =>
      intro other hother
      rcases List.mem_cons.mp hother with rfl | hother
      · obtain ⟨node, hnode, -⟩ := h.1
        exact lt_size_of_node? hnode
      · exact ih h.2 other hother

/-- **Fewer nodes are entered than the arena has while one is still to be entered.** -/
theorem Walking.length_lt (h : Walking g (.enter id :: rest) ⟨g, path, Table.empty⟩)
    (henter : (⟨g, path, Table.empty⟩ : Attachment).enter id = .ok (some payload)) :
    path.length < g.nodes.size := by
  have hnext := h.enter henter
  have hsub : id :: path ⊆ g.ids := by
    intro other hother
    refine mem_ids_iff.mpr (hnext.planned.lt_size other ?_)
    rw [hnext.entered]
    exact hother
  have hle := hnext.nodup.length_le_of_subset hsub
  simp only [List.length_cons, ids, List.length_map, List.length_range] at hle
  omega

/-- **A blocked way ends in its fault, with nothing changed.** -/
theorem walk_of_blocked (hblocked : g.Blocked path id fault) {bound : Nat}
    (hwalking : Walking g (.enter id :: rest) ⟨g, path, Table.empty⟩)
    (hbound : g.nodes.size ≤ bound + path.length) :
    (walk bound (.enter id :: rest) ⟨g, path, Table.empty⟩).result = .error fault ∧
      (walk bound (.enter id :: rest) ⟨g, path, Table.empty⟩).state.graph = g := by
  induction hblocked generalizing bound rest with
  -- By induction on the way down: the fault is here, or it is deeper.  Members in front of the
  -- next node on the way are passed by, and the invariant of the walk keeps the bound from being
  -- met.
  | here henter =>
    rw [walk]
    simp only [henter, and_self]
  | @deeper path id next fault payload henter hnext hdeeper ih =>
    obtain ⟨bound, rfl⟩ : ∃ less, bound = less + 1 :=
      ⟨bound - 1, by have := hwalking.length_lt henter; omega⟩
    obtain ⟨-, passed, later, hedges, hpassed⟩ := List.find?_eq_some_iff_append.mp hnext
    have hmembers : ∀ target ∈ passed, g.isActive target = true := fun target htarget => by
      simpa using hpassed target htarget
    have hinside := hwalking.enter henter
    rw [walk]
    simp only [henter]
    rw [hedges, List.map_append, List.append_assoc] at hinside ⊢
    rw [walk_skip_members bound hmembers]
    exact ih (hinside.skip_members hmembers) (by simp only [List.length_cons]; omega)

/-- Entering succeeds where the way is not blocked, and there is room for it. -/
theorem enter_of_not_blocked {bound : Nat}
    (hwalking : Walking g (.enter id :: rest) ⟨g, path, Table.empty⟩)
    (hbound : g.nodes.size ≤ bound + path.length) (hnew : g.isActive id = false)
    (hfree : ∀ fault, ¬ g.Blocked path id fault) :
    ∃ payload less, (⟨g, path, Table.empty⟩ : Attachment).enter id = .ok (some payload) ∧
      bound = less + 1 := by
  cases henter : (⟨g, path, Table.empty⟩ : Attachment).enter id with
  | error fault => exact absurd (.here henter) (hfree fault)
  | ok answer =>
    cases answer with
    | none => exact absurd (isActive_of_enter henter) (by simp [hnew])
    | some payload =>
      have := hwalking.length_lt henter
      exact ⟨payload, bound - 1, rfl, by omega⟩

/-- **A walk that is not blocked and has something to do leaves a node.** -/
theorem walk_leaves {bound : Nat} (hwalking : Walking g (.enter id :: rest) ⟨g, path, Table.empty⟩)
    (hbound : g.nodes.size ≤ bound + path.length) (hnew : g.isActive id = false)
    (hfree : ∀ fault, ¬ g.Blocked path id fault) :
    ∃ bound' rest' path' id', Walking g (.leave id' :: rest') ⟨g, path', Table.empty⟩ ∧
      walk bound (.enter id :: rest) ⟨g, path, Table.empty⟩
        = walk bound' (.leave id' :: rest') ⟨g, path', Table.empty⟩ := by
  -- The way down is no longer than the bound, so the induction is on the bound.
  induction bound generalizing path id rest with
  | zero =>
    obtain ⟨payload, less, -, hbad⟩ := enter_of_not_blocked hwalking hbound hnew hfree
    exact absurd hbad (by omega)
  | succ bound ih =>
    obtain ⟨payload, -, henter, -⟩ := enter_of_not_blocked hwalking hbound hnew hfree
    have hinside := hwalking.enter henter
    rw [walk]
    simp only [henter]
    cases hnext : payload.edges.find? fun target => !g.isActive target with
    | none =>
      -- Every target is a member: the node itself is the first to be left.
      have hmembers : ∀ target ∈ payload.edges, g.isActive target = true := fun target htarget => by
        simpa using List.find?_eq_none.mp hnext target htarget
      rw [walk_skip_members bound hmembers]
      exact ⟨bound, rest, id :: path, id, hinside.skip_members hmembers, rfl⟩
    | some next =>
      obtain ⟨hnew', passed, later, hedges, hpassed⟩ := List.find?_eq_some_iff_append.mp hnext
      have hmembers : ∀ target ∈ passed, g.isActive target = true := fun target htarget => by
        simpa using hpassed target htarget
      rw [hedges, List.map_append, List.append_assoc] at hinside ⊢
      rw [walk_skip_members bound hmembers]
      exact ih (hinside.skip_members hmembers) (by simp only [List.length_cons]; omega)
        (by simpa using hnew') fun fault hblocked => hfree fault (.deeper henter hnext hblocked)

/-- A node that is left is detached no longer. -/
theorem state_of_leave {a a' : Attachment} {reports : List Report}
    (hleave : a.leave id = ⟨.ok (), a', reports⟩) :
    ∃ node, a'.graph.node? id = some node ∧ node.state ≠ .detached := by
  obtain ⟨node, hnode, ⟨member, -, rfl⟩ | ⟨-, rfl⟩⟩ := leave_cases hleave
  · exact ⟨{ node with state := .deleted }, by simp [discard, hnode], by simp⟩
  · exact ⟨_, by rw [node?_enroll, hnode]; rfl, by simp⟩

/-- **Once a node is left the graph has advanced**, however the walk goes on. -/
theorem walk_advances (hwalking : Walking g (.leave id :: rest) ⟨g, path, Table.empty⟩)
    (bound : Nat) :
    g.Advanced (walk bound (.leave id :: rest) ⟨g, path, Table.empty⟩).state.graph := by
  obtain ⟨⟨node, hnode, hstate, -⟩, -⟩ := hwalking.planned
  obtain ⟨a, reports, hleave, hnext, hsettled, -⟩ := hwalking.leave
  obtain ⟨node', hnode', hstate'⟩ := state_of_leave hleave
  -- From here on the walk is one that starts from the graph with the node left, which only grows.
  have hrebased : Walking a.graph rest a :=
    ⟨hnext.kept, Grown.refl _, hnext.resolved, hnext.entered, hnext.nodup, hnext.planned⟩
  obtain ⟨rest', hend, -⟩ := hrebased.walk (Or.inl hsettled) bound
  rw [walk]
  simp only [hleave]
  exact Advanced.trans_ages ⟨id, node, node', hnode, hstate, hnode', hstate'⟩ hend.grown.ages

end Attachment

/-! ## 3. Attaching -/

/-- Attaching a node that is blocked ends in the fault and changes nothing. -/
theorem attach_of_blocked (h : g.Kept) (hblocked : g.Blocked [] id fault) :
    (attach id g).result = .error fault ∧ (attach id g).state = g := by
  obtain ⟨hresult, hstate⟩ := Attachment.walk_of_blocked hblocked (walking_start h id)
    (Nat.le_add_right _ _)
  rw [attach_eq, attachResolving]
  cases hwalk : Attachment.walk g.nodes.size [.enter id] ⟨g, [], Table.empty⟩ with
  | mk result a reports =>
    rw [hwalk] at hresult hstate
    obtain rfl : result = .error fault := hresult
    exact ⟨rfl, hstate⟩

/-- **Attaching finds a member, or is blocked, or advances the graph.** -/
theorem attach_cases (h : g.Kept) (id : NodeId) :
    g.isActive id = true ∨ (∃ fault, g.Blocked [] id fault) ∨ g.Advanced (attach id g).state := by
  by_cases hnew : g.isActive id = true
  · exact Or.inl hnew
  · by_cases hblocked : ∃ fault, g.Blocked [] id fault
    · exact Or.inr (Or.inl hblocked)
    · obtain ⟨bound, rest, path, first, hwalking, hwalk⟩ := Attachment.walk_leaves
        (walking_start h id) (Nat.le_add_right _ _) (Bool.eq_false_iff.mpr hnew)
        fun fault hfault => hblocked ⟨fault, hfault⟩
      have hadvances := Attachment.walk_advances hwalking bound
      rw [← hwalk] at hadvances
      refine Or.inr (Or.inr ?_)
      rw [attach_eq, attachResolving]
      cases hend : Attachment.walk g.nodes.size [.enter id] ⟨g, [], Table.empty⟩ with
      | mk result a reports =>
        rw [hend] at hadvances
        cases result <;> exact hadvances

/-- **A fault spares the graph exactly if it is met on the way down.**  A member has no fault, and
a graph that advanced is another one. -/
theorem attach_state_eq_iff (h : g.Kept) (hfault : (attach id g).result = .error fault) :
    (attach id g).state = g ↔ g.Blocked [] id fault := by
  refine ⟨fun hsame => ?_, fun hblocked => (attach_of_blocked h hblocked).2⟩
  rcases attach_cases h id with hactive | ⟨fault', hblocked⟩ | hadvanced
  · rw [(attach_of_isActive hactive).1] at hfault
    exact absurd hfault (by simp)
  · rw [(attach_of_blocked h hblocked).1] at hfault
    rwa [← Except.error.inj hfault]
  · exact absurd hsame hadvanced.ne

/-! ## 4. Deleting and replacing -/

/-- **Deleting checks everything before it changes anything.** -/
theorem delete_state_of_fault (hfault : (delete id g).result = .error fault) :
    (delete id g).state = g := by
  unfold delete at hfault ⊢
  cases hnode : g.node? id with
  | none => rfl
  | some node =>
    simp only [hnode] at hfault ⊢
    by_cases hdeleted : node.isDeleted = true
    · simp only [if_pos hdeleted]
    · by_cases hnil : node.usages.isEmpty = true
      · simp [hdeleted, hnil] at hfault
      · simp only [if_neg hdeleted, if_neg hnil]

/-- What is refused as no member is none. -/
theorem isActive_eq_false_of_requireActive (h : g.requireActive id = .error fault) :
    g.isActive id = false := by
  by_contra hactive
  rw [requireActive_eq_ok_iff.mpr (isActive_iff.mp (by simpa using hactive))] at h
  exact absurd h (by simp)

/-- **A replacement that fails spares the graph** if the old node is no member, or the new one is,
or attaching the new one is blocked. -/
theorem replace_state_eq_iff (h : g.Kept) {old new : NodeId}
    (hfault : (replace old new g).result = .error fault) :
    (replace old new g).state = g ↔
      g.isActive old = false ∨ g.isActive new = true ∨ g.Blocked [] new fault := by
  have hreplaced := replace_ends h old new
  unfold Run.Ends at hreplaced
  rw [hfault] at hreplaced
  generalize (replace old new g).state = after at hreplaced ⊢
  -- Once the old node has passed, all depends on how the new one is attached.
  have hafter : ∀ {payload}, g.member? old = some payload →
      ((attach new g).result = .error fault ∨ ∃ member, (attach new g).result = .ok member) →
      ((attach new g).state = g ↔
        g.isActive old = false ∨ g.isActive new = true ∨ g.Blocked [] new fault) := by
    intro payload hold hattach
    have hactive : g.isActive old = true := isActive_iff.mpr ⟨payload, hold⟩
    rw [hactive]
    rcases attach_cases h new with hnew | ⟨fault', hblocked⟩ | hadvanced
    · simp [hnew, (attach_of_isActive hnew).2]
    · obtain ⟨hresult, hstate⟩ := attach_of_blocked h hblocked
      rw [hresult] at hattach
      rcases hattach with hsame | ⟨member, hbad⟩
      · obtain rfl := Except.error.inj hsame
        simp [hstate, hblocked]
      · exact absurd hbad (by simp)
    · refine iff_of_false hadvanced.ne ?_
      rintro (hbad | hnew | hblocked)
      · exact absurd hbad (by simp)
      · exact hadvanced.ne (attach_of_isActive hnew).2
      · exact hadvanced.ne (attach_of_blocked h hblocked).2
  cases hreplaced with
  | inactive hold => exact iff_of_true rfl (Or.inl (isActive_eq_false_of_requireActive hold))
  | unattached hold hnew => exact hafter hold (Or.inl hnew)
  | reached hold hnew => exact hafter hold (Or.inr ⟨_, hnew⟩)
  | misfit hold hnew => exact hafter hold (Or.inr ⟨_, hnew⟩)

/-! ## 5. Redirecting -/

/-- **The first new target that is no member**: the first node that redirecting has to attach. -/
def newcomer? (g : Graph) (changes : List (Slot × Option NodeId)) : Option NodeId :=
  (changes.filterMap fun change => if change.1.target = change.2 then none else change.2).find?
    fun target => !g.isActive target

/-- What attaching new targets comes to: there is nothing to attach, or the first that is no member
is blocked, or the graph advances. -/
inductive TargetsAttached (g : Graph) (changes : List (Slot × Option NodeId)) :
    Except Fault (List (Option NodeId)) → Graph → Prop where
  | idle (hnone : g.newcomer? changes = none) :
    TargetsAttached g changes (.ok (changes.map Prod.snd)) g
  | blocked {id : NodeId} {fault : Fault} (hsome : g.newcomer? changes = some id)
    (hblocked : g.Blocked [] id fault) : TargetsAttached g changes (.error fault) g
  | advanced {r : Except Fault (List (Option NodeId))} {g' : Graph} {id : NodeId}
    (hsome : g.newcomer? changes = some id) (hfree : ∀ fault, ¬ g.Blocked [] id fault)
    (hadvanced : g.Advanced g') : TargetsAttached g changes r g'

/-- A change that leaves its slot alone, empties it or asks for a member has nothing to attach. -/
theorem newcomer?_cons_skip {change : Slot × Option NodeId} {changes : List (Slot × Option NodeId)}
    (h : change.1.target = change.2 ∨ ∀ target ∈ change.2, g.isActive target = true) :
    g.newcomer? (change :: changes) = g.newcomer? changes := by
  unfold newcomer?
  by_cases hsame : change.1.target = change.2
  · simp [hsame]
  · have hactive := h.resolve_left hsame
    cases htarget : change.2 with
    | none => simp [htarget]
    | some target =>
      rw [htarget] at hsame hactive
      simp [hsame, htarget, hactive target rfl]

/-- One that asks for a node that is no member has. -/
theorem newcomer?_cons_new {slot : Slot} {changes : List (Slot × Option NodeId)}
    (hdiffers : slot.target ≠ some id) (hnew : g.isActive id = false) :
    g.newcomer? ((slot, some id) :: changes) = some id := by
  simp [newcomer?, hdiffers, hnew]

/-- **Attaching targets ends in one of these ways.** -/
theorem attachTargets_cases (h : g.Kept) (changes : List (Slot × Option NodeId)) :
    (attachTargets changes).Ends g (TargetsAttached g changes) := by
  induction changes with
  | nil => exact .idle rfl
  | cons change changes ih =>
    obtain ⟨slot, target⟩ := change
    -- A target that needs no attaching leaves the rest as it is.
    have hskip : slot.target = target ∨ (∀ id ∈ target, g.isActive id = true) →
        (attachTargets changes >>= fun targets => pure (target :: targets)).Ends g
          (TargetsAttached g ((slot, target) :: changes)) := by
      intro hpassed
      have hsame : g.newcomer? ((slot, target) :: changes) = g.newcomer? changes :=
        newcomer?_cons_skip hpassed
      rw [Run.ends_bind]
      refine ih.imp fun r g' hrest => ?_
      cases hrest with
      | idle hnone => exact .idle (hsame.trans hnone)
      | blocked hsome hblocked => exact .blocked (hsame.trans hsome) hblocked
      | advanced hsome hfree hadvanced =>
        cases r <;> exact .advanced (hsame.trans hsome) hfree hadvanced
    unfold attachTargets
    cases target with
    | none =>
      simp only
      rw [Run.ends_bind, Run.ends_pure]
      exact hskip (Or.inr (by simp))
    | some id =>
      simp only
      by_cases hsame : slot.target = some id
      · rw [if_pos hsame, Run.ends_bind, Run.ends_pure]
        exact hskip (Or.inl hsame)
      · rw [if_neg hsame, Run.ends_bind, Run.ends_map]
        unfold Run.Ends
        -- The first target that has to be attached decides: if attaching it changes the graph,
        -- whatever comes later cannot undo it.
        rcases attach_cases h id with hactive | ⟨fault, hblocked⟩ | hadvanced
        · obtain ⟨hresult, hstate⟩ := attach_of_isActive hactive
          rw [hresult, hstate]
          exact hskip (Or.inr (by simpa using hactive))
        · obtain ⟨hresult, hstate⟩ := attach_of_blocked h hblocked
          have hnew : g.isActive id = false := by
            by_contra hactive
            rw [(attach_of_isActive (by simpa using hactive)).1] at hresult
            exact absurd hresult (by simp)
          rw [hresult, hstate]
          exact .blocked (newcomer?_cons_new hsame hnew) hblocked
        · have hnew : g.isActive id = false := by
            by_contra hactive
            exact hadvanced.ne (attach_of_isActive (by simpa using hactive)).2
          have hfirst : g.newcomer? ((slot, some id) :: changes) = some id :=
            newcomer?_cons_new hsame hnew
          have hfree : ∀ fault, ¬ g.Blocked [] id fault := fun fault hblocked =>
            hadvanced.ne (attach_of_blocked h hblocked).2
          cases (attach id g).result with
          | error fault => exact .advanced hfirst hfree hadvanced
          | ok new =>
            change Run.Ends _ (attach id g).state _
            rw [Run.ends_bind]
            refine (attachTargets_ends (attach_kept h id) changes).imp fun r g' hrest => ?_
            have hlater := hadvanced.trans_ages hrest.2.1.ages
            cases r <;> exact .advanced hfirst hfree hlater

/-- Where no new target has to be attached nothing is. -/
theorem attachTargets_of_no_newcomer (h : g.Kept) {changes : List (Slot × Option NodeId)}
    (hnone : g.newcomer? changes = none) :
    (attachTargets changes).Ends g fun r g' => r = .ok (changes.map Prod.snd) ∧ g' = g := by
  refine (attachTargets_cases h changes).imp fun r g' hcases => ?_
  cases hcases with
  | idle => exact ⟨rfl, rfl⟩
  | blocked hsome =>
    rw [hnone] at hsome
    exact absurd hsome (by simp)
  | advanced hsome =>
    rw [hnone] at hsome
    exact absurd hsome (by simp)

/-- **Redirecting slots of `owner` meets `fault` before it changes anything**: a target is refused,
or the first one that has to be attached is blocked. -/
def Spared (g : Graph) (owner : NodeId) (slots : List Slot) (targets : List (Option NodeId))
    (fault : Fault) : Prop :=
  g.checkTargets owner (slots.zip targets) = .error fault ∨
    ∃ id, g.newcomer? (slots.zip targets) = some id ∧ g.Blocked [] id fault

variable {owner : NodeId} {slots : List Slot} {targets : List (Option NodeId)}
  {assign : List (Option NodeId) → Payload → Payload}

/-- **Redirecting that fails spares the graph exactly if it is spared.** -/
theorem retarget_state_eq_iff (h : g.Kept)
    (hfault : (retarget owner slots targets assign g).result = .error fault) :
    (retarget owner slots targets assign g).state = g ↔ g.Spared owner slots targets fault := by
  have hredirected := retarget_ends g owner slots targets assign
  unfold Run.Ends at hredirected
  rw [hfault] at hredirected
  generalize (retarget owner slots targets assign g).state = after at hredirected ⊢
  cases hredirected with
  | refused hcheck => exact iff_of_true rfl (Or.inl hcheck)
  | unattached hcheck htargets =>
    have hattached := attachTargets_cases h (slots.zip targets)
    unfold Run.Ends at hattached
    rw [htargets] at hattached
    generalize (attachTargets (slots.zip targets) g).state = after at hattached ⊢
    cases hattached with
    | blocked hsome hblocked => exact iff_of_true rfl (Or.inr ⟨_, hsome, hblocked⟩)
    | advanced hsome hfree hadvanced =>
      refine iff_of_false hadvanced.ne ?_
      rintro (hbad | ⟨id, hsome', hblocked⟩)
      · rw [hcheck] at hbad
        exact absurd hbad (by simp)
      · rw [hsome] at hsome'
        obtain rfl := Option.some.inj hsome'
        exact hfree fault hblocked

/-- Redirecting that is spared fails. -/
theorem retarget_of_spared (h : g.Kept) (hspared : g.Spared owner slots targets fault) :
    (retarget owner slots targets assign).Ends g fun r g' =>
      (∃ fault', r = .error fault') ∧ g' = g := by
  refine (retarget_ends g owner slots targets assign).imp fun r g' hredirected => ?_
  have hattached := attachTargets_cases h (slots.zip targets)
  unfold Run.Ends at hattached
  -- Past the check only a blocked target is left, and that keeps the targets from being attached.
  have hblocked : g.checkTargets owner (slots.zip targets) = .ok () →
      (∃ fault', (attachTargets (slots.zip targets) g).result = .error fault') ∧
        (attachTargets (slots.zip targets) g).state = g := by
    intro hcheck
    rcases hspared with hbad | ⟨id, hsome, hblocked⟩
    · rw [hcheck] at hbad
      exact absurd hbad (by simp)
    · generalize (attachTargets (slots.zip targets) g).result = r at hattached ⊢
      generalize (attachTargets (slots.zip targets) g).state = after at hattached ⊢
      cases hattached with
      | idle hnone =>
        rw [hnone] at hsome
        exact absurd hsome (by simp)
      | blocked => exact ⟨⟨_, rfl⟩, rfl⟩
      | advanced hsome' hfree =>
        rw [hsome] at hsome'
        obtain rfl := Option.some.inj hsome'
        exact absurd hblocked (hfree fault)
  cases hredirected with
  | refused hcheck => exact ⟨⟨_, rfl⟩, rfl⟩
  | unattached hcheck htargets => exact ⟨⟨_, rfl⟩, (hblocked hcheck).2⟩
  | unchanged hcheck htargets =>
    obtain ⟨⟨fault', hbad⟩, -⟩ := hblocked hcheck
    rw [hbad] at htargets
    exact absurd htargets (by simp)
  | changed hcheck htargets =>
    obtain ⟨⟨fault', hbad⟩, -⟩ := hblocked hcheck
    rw [hbad] at htargets
    exact absurd htargets (by simp)

/-- **Redirecting one side that fails spares the graph** if the owner is no member or a fault is met
before anything changes. -/
theorem redirectAt_state_eq_iff (h : g.Kept) {side : Payload → List Slot}
    {f : Nat → Option NodeId → Option NodeId}
    (hfault : (redirectAt side assign owner f g).result = .error fault) :
    (redirectAt side assign owner f g).state = g ↔ g.isActive owner = false ∨
      ∃ payload, g.payload? owner = some payload ∧
        g.Spared owner (side payload) (((side payload).map Slot.target).mapIdx f) fault := by
  revert hfault
  refine ends_onMember (Q := fun r g' => r = .error fault → (g' = g ↔ _)) ?_ ?_
  · intro fault' hrequire hfault
    exact iff_of_true rfl (Or.inl (isActive_eq_false_of_requireActive hrequire))
  · intro payload howner hfault
    rw [payload?_of_member? howner, isActive_iff.mpr ⟨payload, howner⟩]
    simpa using retarget_state_eq_iff h hfault

/-- Slots that all have their new targets already. -/
theorem forall_zip_target_eq_iff (hlen : slots.length = targets.length) :
    (∀ change ∈ slots.zip targets, change.1.target = change.2) ↔
      targets = slots.map Slot.target := by
  induction slots generalizing targets with
  | nil =>
    cases targets with
    | nil => simp
    | cons target targets => simp at hlen
  | cons slot slots ih =>
    cases targets with
    | nil => simp at hlen
    | cons target targets =>
      rw [List.zip_cons_cons, List.forall_mem_cons, ih (by simpa using hlen), List.map_cons,
        List.cons.injEq, eq_comm]

/-- Inputs that take other targets make another payload. -/
theorem assignInputs_ne (hlen : payload.inputSlots.length = targets.length)
    (htakes : ∀ change ∈ payload.inputSlots.zip targets, change.1.Takes change.2)
    (hdiffers : targets ≠ payload.inputs) : payload.assignInputs targets ≠ payload := by
  intro hsame
  exact hdiffers ((Payload.inputs_assignInputs hlen htakes).symm.trans
    (congrArg Payload.inputs hsame))

/-- **What redirecting inputs leaves behind when it succeeds**: an advanced graph, the same graph
if no input was to change, or another payload of the owner. -/
theorem retarget_inputs_ok (h : g.Kept) (howner : g.member? owner = some payload)
    (hlen : payload.inputSlots.length = targets.length) :
    (retarget owner payload.inputSlots targets Payload.assignInputs).Ends g fun r g' =>
      ∀ changed, r = .ok changed → g.Advanced g' ∨ (targets = payload.inputs ∧ g' = g) ∨
        ∃ payload', g'.member? owner = some payload' ∧ payload' ≠ payload := by
  refine (retarget_ends g owner _ _ _).imp fun r g' hredirected changed hok => ?_
  have hattached := attachTargets_cases h (payload.inputSlots.zip targets)
  obtain ⟨-, hgrown, hresolved⟩ := attachTargets_ends h (payload.inputSlots.zip targets)
  unfold Run.Ends at hattached
  have hsnd : (payload.inputSlots.zip targets).map Prod.snd = targets :=
    List.map_snd_zip (by omega)
  cases hredirected with
  | refused => exact absurd hok (by simp)
  | unattached => exact absurd hok (by simp)
  | unchanged hcheck htargets hsame =>
    rw [htargets] at hattached
    generalize (attachTargets (payload.inputSlots.zip targets) g).state = after at hattached ⊢
    cases hattached with
    | idle hnone =>
      rw [hsnd] at hsame
      exact Or.inr (Or.inl ⟨(forall_zip_target_eq_iff hlen).mp hsame, rfl⟩)
    | advanced hsome hfree hadvanced => exact Or.inl hadvanced
  | @changed resolved hcheck htargets hdiffers =>
    have hfills := fills_of_resolved h hgrown howner
      (fun slot hslot => List.mem_append_left _ hslot) hlen hcheck (hresolved resolved htargets)
    rw [htargets] at hattached
    generalize (attachTargets (payload.inputSlots.zip targets) g).state = after
      at hattached hgrown ⊢
    cases hattached with
    | idle hnone =>
      rw [hsnd] at hdiffers hfills ⊢
      refine Or.inr (Or.inr ⟨_, by rw [member?_overwrite howner, if_pos rfl], ?_⟩)
      refine assignInputs_ne hlen (fun change hchange => (hfills.2 change hchange).1)
        fun hsame => ?_
      obtain ⟨change, hchange, hne⟩ := hdiffers
      exact hne ((forall_zip_target_eq_iff hlen).mpr hsame change hchange)
    | advanced hsome hfree hadvanced =>
      exact Or.inl (hadvanced.trans_ages (ages_overwrite _ _ _ _ fun _ _ hunique =>
        Payload.assignInputs_of_isUnique hunique _))

/-- Targets that are those of their slots change nothing. -/
theorem retarget_same (h : g.Kept) (hlen : slots.length = targets.length)
    (hsame : targets = slots.map Slot.target) :
    (retarget owner slots targets assign).Ends g fun r g' => r = .ok false ∧ g' = g := by
  have hall := (forall_zip_target_eq_iff hlen).mpr hsame
  have hcheck : g.checkTargets owner (slots.zip targets) = .ok () :=
    (forM_eq_ok_iff _ _).mpr fun change hchange => if_pos (hall change hchange)
  have hnone : g.newcomer? (slots.zip targets) = none := by
    have hnil : ((slots.zip targets).filterMap fun change =>
        if change.1.target = change.2 then none else change.2) = [] :=
      List.filterMap_eq_nil_iff.mpr fun change hchange => if_pos (hall change hchange)
    rw [newcomer?, hnil, List.find?_nil]
  obtain ⟨hresult, hstate⟩ := attachTargets_of_no_newcomer h hnone
  rw [List.map_snd_zip (by omega)] at hresult
  refine (retarget_ends g owner slots targets assign).imp fun r g' hredirected => ?_
  cases hredirected with
  | refused hbad =>
    rw [hcheck] at hbad
    exact absurd hbad (by simp)
  | unattached _ hbad =>
    rw [hresult] at hbad
    exact absurd hbad (by simp)
  | unchanged => exact ⟨rfl, hstate⟩
  | changed _ htargets hdiffers =>
    rw [hresult] at htargets
    obtain rfl := Except.ok.inj htargets
    obtain ⟨change, hchange, hne⟩ := hdiffers
    exact absurd (hall change hchange) hne

/-- Redirecting that fails only attached nodes. -/
theorem retarget_grown_of_fault (h : g.Kept) :
    (retarget owner slots targets assign).Ends g fun r g' =>
      ∀ fault, r = .error fault → g.Grown g' := by
  refine (retarget_ends g owner slots targets assign).imp fun r g' hredirected fault hfault => ?_
  obtain ⟨-, hgrown, -⟩ := attachTargets_ends h (slots.zip targets)
  cases hredirected with
  | refused => exact Grown.refl g
  | unattached => exact hgrown
  | unchanged => exact absurd hfault (by simp)
  | changed => exact absurd hfault (by simp)

/-- Where the place does not matter. -/
theorem mapIdx_const {α β : Type} (f : α → β) (items : List α) :
    items.mapIdx (fun _ => f) = items.map f := by
  refine List.ext_getElem? fun index => ?_
  simp

/-- Redirecting one side of a member by its present targets. -/
theorem ends_redirectAt_iff (howner : g.member? owner = some payload) {side : Payload → List Slot}
    {f : Option NodeId → Option NodeId} {Q : Except Fault Bool → Graph → Prop} :
    (redirectAt side assign owner fun _ => f).Ends g Q ↔
      (retarget owner (side payload) (((side payload).map Slot.target).map f) assign).Ends g Q := by
  unfold redirectAt
  rw [Run.ends_bind, Run.ends_state]
  simp only
  rw [Run.ends_bind, Run.ends_ofExcept, requireActive_eq_ok_iff.mpr ⟨payload, howner⟩]
  simp only [payload?_of_member? howner, mapIdx_const]

/-- The second of two redirections failed: only what the first did can have changed the graph. -/
theorem redirectSuccessors_state_ne (h : g'.Kept) {f : Option NodeId → Option NodeId}
    (hfault : (redirectSuccessors owner f g').result = .error fault)
    (hchanged : g.Advanced g' ∨ ∃ payload payload', g.member? owner = some payload ∧
      g'.member? owner = some payload' ∧ payload' ≠ payload) :
    (redirectSuccessors owner f g').state ≠ g := by
  rcases hchanged with hadvanced | ⟨payload, payload', howner, howner', hne⟩
  · exact (hadvanced.trans_ages (ages_redirectSuccessorsAt h owner fun _ => f)).ne
  · have hgrown : (redirectSuccessors owner f).Ends g' fun r g'' =>
        ∀ fault, r = .error fault → g'.Grown g'' :=
      (ends_redirectAt_iff howner').mpr (retarget_grown_of_fault h)
    intro hsame
    have hlater := (hgrown fault hfault).member? howner'
    rw [hsame, howner] at hlater
    exact hne (Option.some.inj hlater).symm

/-- Nothing is redirected where there is no member. -/
theorem redirectNode_of_not_active (s : Substitution) (hactive : g.isActive owner = false) :
    (s.redirectNode owner g).state = g := by
  change Run.Ends (s.redirectNode owner) g fun _ g' => g' = g
  unfold Substitution.redirectNode
  rw [Run.ends_bind, Run.ends_state]
  simp only
  rw [Run.ends_bind]
  refine ends_onMember (fun _ _ => rfl) fun payload howner => ?_
  rw [isActive_iff.mpr ⟨payload, howner⟩] at hactive
  exact absurd hactive (by simp)

/-- A fault of redirecting inputs and then successors comes from the inputs, or from the successors
of the graph that the inputs led to. -/
theorem redirectNode_fault (s : Substitution) (howner : g.member? owner = some payload)
    (hfault : (s.redirectNode owner g).result = .error fault) :
    (retarget owner payload.inputSlots (payload.inputs.map (s.apply g)) Payload.assignInputs).Ends g
      fun r g' =>
        r = .error fault ∧ (s.redirectNode owner g).state = g' ∨
        (∃ changed, r = .ok changed) ∧
          (redirectSuccessors owner (s.apply g') g').result = .error fault ∧
          (s.redirectNode owner g).state = (redirectSuccessors owner (s.apply g') g').state := by
  have hends : (s.redirectNode owner).Ends g fun r g' =>
      r = .error fault ∧ (s.redirectNode owner g).state = g' := ⟨hfault, rfl⟩
  generalize (s.redirectNode owner g).state = final at hends ⊢
  unfold Substitution.redirectNode at hends
  rw [Run.ends_bind, Run.ends_state] at hends
  simp only at hends
  rw [Run.ends_bind, redirectInputs, redirectInputsAt, ends_redirectAt_iff howner] at hends
  refine hends.imp fun r g' hinputs => ?_
  cases r with
  | error fault' => exact Or.inl hinputs
  | ok changed =>
    change Run.Ends (Run.state >>= fun g => do
      let successors ← redirectSuccessors owner (s.apply g)
      pure (changed || successors)) g' _ at hinputs
    rw [Run.ends_bind, Run.ends_state] at hinputs
    simp only at hinputs
    rw [Run.ends_bind] at hinputs
    refine Or.inr ⟨⟨changed, rfl⟩, ?_⟩
    unfold Run.Ends at hinputs
    cases hresult : (redirectSuccessors owner (s.apply g') g').result with
    | error fault' => rwa [hresult] at hinputs
    | ok changed' =>
      rw [hresult] at hinputs
      exact absurd hinputs.1 (by simp [pure, Run.pure])

theorem redirectSuccessors_state_eq_iff (h : g.Kept) (howner : g.member? owner = some payload)
    {f : Option NodeId → Option NodeId}
    (hfault : (redirectSuccessors owner f g).result = .error fault) :
    (redirectSuccessors owner f g).state = g ↔
      g.Spared owner payload.successorSlots (payload.successors.map f) fault := by
  have hiff := redirectAt_state_eq_iff h hfault
  simp only [isActive_iff.mpr ⟨payload, howner⟩, payload?_of_member? howner, Option.some.injEq,
    exists_eq_left', Bool.true_eq_false, false_or, mapIdx_const] at hiff
  exact hiff

/-- **Redirecting inputs and then successors fails without a change** if the owner is no member, or
the inputs meet a fault before anything changes, or no input is to change and the successors do. -/
theorem redirectNode_state_eq_iff (h : g.Kept) (s : Substitution)
    (hfault : (s.redirectNode owner g).result = .error fault) :
    (s.redirectNode owner g).state = g ↔ g.isActive owner = false ∨
      ∃ payload, g.payload? owner = some payload ∧
        (g.Spared owner payload.inputSlots (payload.inputs.map (s.apply g)) fault ∨
          payload.inputs.map (s.apply g) = payload.inputs ∧
            g.Spared owner payload.successorSlots (payload.successors.map (s.apply g)) fault) := by
  by_cases hactive : g.isActive owner = true
  case neg =>
    have hinactive : g.isActive owner = false := by simpa using hactive
    exact iff_of_true (redirectNode_of_not_active s hinactive) (Or.inl hinactive)
  case pos =>
    obtain ⟨payload, howner⟩ := isActive_iff.mp hactive
    have hlen : payload.inputSlots.length = (payload.inputs.map (s.apply g)).length := by
      simp [Payload.inputs]
    simp only [hactive, payload?_of_member? howner, Option.some.injEq, exists_eq_left',
      Bool.true_eq_false, false_or]
    have hsame : payload.inputs.map (s.apply g) = payload.inputs →
        (retarget owner payload.inputSlots (payload.inputs.map (s.apply g))
          Payload.assignInputs).Ends g fun r g' => r = .ok false ∧ g' = g := retarget_same h hlen
    rcases redirectNode_fault s howner hfault with
      ⟨hresult, hstate⟩ | ⟨⟨changed, hresult⟩, hsecond, hstate⟩
    · rw [hstate, retarget_state_eq_iff h hresult]
      refine ⟨Or.inl, ?_⟩
      rintro (hinputs | ⟨hinputs, -⟩)
      · exact hinputs
      · rw [(hsame hinputs).1] at hresult
        exact absurd hresult (by simp)
    · have hnot : ¬ g.Spared owner payload.inputSlots (payload.inputs.map (s.apply g)) fault := by
        intro hinputs
        obtain ⟨⟨fault', hbad⟩, -⟩ : (retarget owner payload.inputSlots
            (payload.inputs.map (s.apply g)) Payload.assignInputs).Ends g fun r g' =>
            (∃ fault', r = .error fault') ∧ g' = g := retarget_of_spared h hinputs
        rw [hresult] at hbad
        exact absurd hbad (by simp)
      have hdone := retarget_inputs_ok h howner hlen changed hresult
      have hkept : (retarget owner payload.inputSlots (payload.inputs.map (s.apply g))
        Payload.assignInputs).Ends g fun _ g' => g'.Kept :=
          retarget_kept h howner payload.isSide_inputs hlen
      rw [hstate]
      unfold Run.Ends at hkept hsame
      generalize (retarget owner payload.inputSlots (payload.inputs.map (s.apply g))
        Payload.assignInputs g).state = g' at hdone hkept hsame hsecond ⊢
      rcases hdone with hadvanced | ⟨hinputs, rfl⟩ | ⟨payload', howner', hne⟩
      · refine iff_of_false (redirectSuccessors_state_ne hkept hsecond (Or.inl hadvanced)) ?_
        rintro (hinputs | ⟨hinputs, -⟩)
        · exact hnot hinputs
        · exact hadvanced.ne (hsame hinputs).2
      · rw [redirectSuccessors_state_eq_iff h howner hsecond]
        refine ⟨fun hsuccessors => Or.inr ⟨hinputs, hsuccessors⟩, ?_⟩
        rintro (hbad | ⟨-, hsuccessors⟩)
        · exact absurd hbad hnot
        · exact hsuccessors
      · refine iff_of_false (redirectSuccessors_state_ne hkept hsecond
          (Or.inr ⟨payload, payload', howner, howner', hne⟩)) ?_
        rintro (hinputs | ⟨hinputs, -⟩)
        · exact hnot hinputs
        · rw [(hsame hinputs).2, howner] at howner'
          exact hne (Option.some.inj howner').symm

/-! ## 6. Every operation on a reachable graph -/

/-- **When a fault leaves a reachable graph as it was**, operation by operation.  Deleting always
does.  The others do if the fault is met before the first node is attached: on the way down from
the node to be attached, before that because the node to work on is no member or a target does not
fit, or after that where nothing had to be attached. -/
theorem Reachable.fault_spares_iff (h : g.Reachable) :
    (∀ id fault, (attach id g).result = .error fault →
      ((attach id g).state = g ↔ g.Blocked [] id fault)) ∧
    (∀ id fault, (delete id g).result = .error fault → (delete id g).state = g) ∧
    (∀ old new fault, (replace old new g).result = .error fault →
      ((replace old new g).state = g ↔
        g.isActive old = false ∨ g.isActive new = true ∨ g.Blocked [] new fault)) ∧
    (∀ owner f fault, (redirectInputsAt owner f g).result = .error fault →
      ((redirectInputsAt owner f g).state = g ↔ g.isActive owner = false ∨
        ∃ payload, g.payload? owner = some payload ∧
          g.Spared owner payload.inputSlots (payload.inputs.mapIdx f) fault)) ∧
    (∀ owner f fault, (redirectSuccessorsAt owner f g).result = .error fault →
      ((redirectSuccessorsAt owner f g).state = g ↔ g.isActive owner = false ∨
        ∃ payload, g.payload? owner = some payload ∧
          g.Spared owner payload.successorSlots (payload.successors.mapIdx f) fault)) ∧
    (∀ owner old new fault, (replaceInput owner old new g).result = .error fault →
      ((replaceInput owner old new g).state = g ↔ g.isActive owner = false ∨
        ∃ payload, g.payload? owner = some payload ∧ g.Spared owner payload.inputSlots
          (payload.inputs.map fun target => if target = some old then some new else target)
            fault)) ∧
    ∀ (s : Substitution) owner fault, (s.redirectNode owner g).result = .error fault →
      ((s.redirectNode owner g).state = g ↔ g.isActive owner = false ∨
        ∃ payload, g.payload? owner = some payload ∧
          (g.Spared owner payload.inputSlots (payload.inputs.map (s.apply g)) fault ∨
            payload.inputs.map (s.apply g) = payload.inputs ∧
              g.Spared owner payload.successorSlots
                (payload.successors.map (s.apply g)) fault)) := by
  have hkept := h.kept
  refine ⟨fun id fault => attach_state_eq_iff hkept, fun id fault => delete_state_of_fault,
    fun old new fault => replace_state_eq_iff hkept,
    fun owner f fault => redirectAt_state_eq_iff hkept,
    fun owner f fault => redirectAt_state_eq_iff hkept, ?_,
    fun s owner fault => redirectNode_state_eq_iff hkept s⟩
  intro owner old new fault hfault
  have hiff := redirectAt_state_eq_iff hkept hfault
  simp only [mapIdx_const] at hiff
  exact hiff

/-- A call of a parameter and of a truncation that reads an unknown node: attaching it fails at the
truncation, and by then the parameter is a member. -/
theorem fault_spares_iff_call :
    let g := ([.create (.param "p" (.uint 8)), .create (.truncate ⟨5⟩ (.uint 4)),
      .create (.builtInCall [⟨0⟩, ⟨1⟩] .add (.uint 8))] : List Move).foldl
        (fun g move => move.after g) (empty "f")
    (attach ⟨2⟩ g).result = .error (.unknownNode ⟨5⟩) ∧ g.isActive ⟨0⟩ = false ∧
      (attach ⟨2⟩ g).state.isActive ⟨0⟩ = true ∧ ¬ g.Blocked [] ⟨2⟩ (.unknownNode ⟨5⟩) := by
  intro g
  have hresult : (attach ⟨2⟩ g).result = .error (.unknownNode ⟨5⟩) := by cbv
  have hbefore : g.isActive ⟨0⟩ = false := by cbv
  have hafter : (attach ⟨2⟩ g).state.isActive ⟨0⟩ = true := by cbv
  refine ⟨hresult, hbefore, hafter, fun hblocked => ?_⟩
  have hsame := ((reachable_foldl "f" _).fault_spares_iff.1 ⟨2⟩ _ hresult).mpr hblocked
  rw [hsame, hbefore] at hafter
  exact absurd hafter (by simp)

end Graph

end BehaviorGraph
