/-
# Redirecting to nodes that are no members yet

Redirecting checks all the new targets first and then attaches them, one slot after the other and
each by a walk of its own.  Attaching deletes a unique node if a member has its payload already, so
what one slot asks for may be gone because of another.  `Lost` says that this happens.  **If every
changed target fits its slot and can be attached by itself, redirecting succeeds exactly if nothing
is lost**, and then every slot has the member that stands for its target (`retarget_answers`).
Nothing is lost if no two of the changed targets ask for the same unique node
(`not_lost_of_apart`).

With one new target for all the slots this comes to a number: redirecting fails exactly if another
member stands for the target and more than one slot asks for it (`attachTargets_of_one`,
`attachTargets_of_two`).

The inductions are on the list of changes, for any graph, since the first target changes the graph
the others are attached to.  A change either leaves its slot alone, and then it may as well not be
there (`ends_attachTargets_kept`), or it asks for a new target, and then the rest continues from
the graph that attaching it leaves (`ends_attachTargets_attached`).  What was known about a later
target is carried across by `Settling`, which says what attaching may do to the nodes of a graph.
-/
import BehaviorGraph.Proofs.Attachable
import BehaviorGraph.Proofs.Faults

namespace BehaviorGraph

namespace Graph

variable {g g' g'' : Graph} {id target rep new old owner : NodeId} {payload : Payload} {node : Node}
  {slot : Slot} {slots : List Slot} {change : Slot × Option NodeId}
  {changes : List (Slot × Option NodeId)}
  {targets got : List (Option NodeId)} {fault : Fault} {roots : List NodeId}

/-! ## 1. Standing for a node -/

/-- Members that stay, and keep their payloads if they are unique, still stand for what they stood
for. -/
theorem Represents.mono (h : Represents g g' id rep)
    (hmembers : ∀ {id payload}, g'.member? id = some payload → ∃ payload',
      g''.member? id = some payload' ∧
      (payload.kind.isUnique = true → payload' = payload)) : Represents g g'' id rep := by
  obtain ⟨node, payload, hnode, hmember, hunique, hself⟩ := h
  obtain ⟨payload', hmember', hsame⟩ := hmembers hmember
  refine ⟨node, payload', hnode, hmember', fun hkind => ?_, hself⟩
  obtain rfl := hunique hkind
  exact hsame hkind

/-- Members of a graph that only grew keep their payloads, so they go on to stand for what they
stood for. -/
theorem Represents.trans_grown (h : Represents g g' id rep) (hgrown : g'.Grown g'') :
    Represents g g'' id rep :=
  h.mono fun hmember => ⟨_, hgrown.member? hmember, fun _ => rfl⟩

/-- Overwriting the edges of a member changes no member that is unique, as `hfixed` says: the
unique kinds have no edges. -/
theorem Represents.overwrite (h : Represents g g' id rep) (howner : g'.member? owner = some payload)
    {assign : List (Option NodeId) → Payload → Payload}
    (hfixed : payload.kind.isUnique = true → assign got payload = payload) :
    Represents g (g'.overwrite owner slots got assign) id rep := by
  refine h.mono fun {id payload'} hmember => ?_
  rw [member?_overwrite howner]
  by_cases hid : id = owner
  · subst hid
    obtain rfl := Option.some.inj (hmember.symm.trans howner)
    exact ⟨_, if_pos rfl, hfixed⟩
  · exact ⟨payload', by rw [if_neg hid, hmember], fun _ => rfl⟩

/-- Attaching other nodes first makes no difference to who stands for a node. -/
theorem Settling.represents (h : g.Settling roots g') (hrep : Represents g' g'' id rep) :
    Represents g g'' id rep := by
  obtain ⟨node', payload, hnode', hmember, hunique, hself⟩ := hrep
  obtain ⟨node, hnode⟩ : ∃ node, g.node? id = some node :=
    exists_node?_of_lt (h.grown.size ▸ lt_size_of_node? hnode')
  obtain ⟨found, hfound, hgrown⟩ := h.grown.node hnode
  obtain rfl := Option.some.inj (hnode'.symm.trans hfound)
  refine ⟨node, payload, hnode, hmember, fun hkind => ?_, fun hkind => hself (hgrown.kind ▸ hkind)⟩
  rw [hunique (hgrown.kind ▸ hkind), h.fixed hnode hnode' hkind]

/-- **Only one member stands for a node**: the node itself, or the member that has its payload, and
the pool sees to it that there is no second one. -/
theorem Represents.eq {rep' : NodeId} (h : Represents g g' id rep) (hkept : g'.Kept)
    (h' : Represents g g' id rep') : rep = rep' := by
  obtain ⟨node, payload, hnode, hmember, hunique, hself⟩ := h
  obtain ⟨node', payload', hnode', hmember', hunique', hself'⟩ := h'
  obtain rfl := Option.some.inj (hnode.symm.trans hnode')
  cases hkind : node.kind.isUnique with
  | true =>
    obtain rfl := hunique hkind
    obtain rfl := hunique' hkind
    exact hkept.unique_member hmember hmember' hkind
  | false => rw [hself hkind, hself' hkind]

/-! ## 2. Attaching targets one after the other -/

/-- The targets that differ from those the slots have. -/
def requested (changes : List (Slot × Option NodeId)) : List NodeId :=
  changes.filterMap fun change => if change.1.target = change.2 then none else change.2

/-- A change that leaves its slot alone or empties it attaches nothing; its target is put in front
of what the rest comes to. -/
theorem ends_attachTargets_kept (h : change.1.target = change.2 ∨ change.2 = none)
    {Q : Except Fault (List (Option NodeId)) → Graph → Prop} :
    (attachTargets (change :: changes)).Ends g Q ↔
      (attachTargets changes).Ends g fun r g' => Q (r.map (change.2 :: ·)) g' := by
  obtain ⟨slot, target⟩ := change
  cases target with
  | none =>
    rw [attachTargets, Run.ends_bind, Run.ends_pure]
    exact Run.ends_map _ _ Q
  | some id =>
    rw [attachTargets, if_pos (h.resolve_right (by simp)), Run.ends_bind, Run.ends_pure]
    exact Run.ends_map _ _ Q

/-- A new target that is attached: the rest continues from the graph this leaves. -/
theorem ends_attachTargets_attached (h : slot.target ≠ some target)
    (hok : (attach target g).result = .ok rep)
    {Q : Except Fault (List (Option NodeId)) → Graph → Prop} :
    (attachTargets ((slot, some target) :: changes)).Ends g Q ↔
      (attachTargets changes).Ends (attach target g).state fun r g' =>
        Q (r.map (some rep :: ·)) g' := by
  rw [attachTargets, if_neg h, Run.ends_bind, Run.ends_map]
  unfold Run.Ends
  rw [hok]
  exact Run.ends_map _ _ Q

/-- A new target that is refused: the rest has no turn any more, and nothing is undone. -/
theorem ends_attachTargets_unattached (h : slot.target ≠ some target)
    (hfault : (attach target g).result = .error fault)
    {Q : Except Fault (List (Option NodeId)) → Graph → Prop} :
    (attachTargets ((slot, some target) :: changes)).Ends g Q ↔
      Q (.error fault) (attach target g).state := by
  rw [attachTargets, if_neg h, Run.ends_bind, Run.ends_map]
  unfold Run.Ends
  rw [hfault]
  rfl

/-- A change leaves its slot alone or empties it, or asks for a new target. -/
theorem kept_or_changed (change : Slot × Option NodeId) :
    (change.1.target = change.2 ∨ change.2 = none) ∨
      ∃ slot target, change = (slot, some target) ∧ slot.target ≠ some target := by
  obtain ⟨slot, target⟩ := change
  cases target with
  | none => exact .inl (.inr rfl)
  | some target =>
    by_cases hsame : slot.target = some target
    · exact .inl (.inl hsame)
    · exact .inr ⟨slot, target, rfl, hsame⟩

theorem requested_cons_kept (h : change.1.target = change.2 ∨ change.2 = none) :
    requested (change :: changes) = requested changes := by
  refine List.filterMap_cons_none ?_
  rcases h with hsame | hnone
  · exact if_pos hsame
  · rw [hnone, ite_self]

theorem requested_cons_changed (h : slot.target ≠ some target) :
    requested ((slot, some target) :: changes) = target :: requested changes :=
  List.filterMap_cons_some (if_neg h)

/-- **What attaching targets may do to the nodes of the graph**: no more than attaching each of
them may do, whether or not one is refused. -/
theorem attachTargets_settling (h : g.Kept) (changes : List (Slot × Option NodeId)) :
    (attachTargets changes).Ends g fun _ g' => g.Settling (requested changes) g' := by
  induction changes generalizing g with
  | nil => exact Settling.refl g
  | cons change changes ih =>
    rcases kept_or_changed change with hsame | ⟨slot, target, rfl, hne⟩
    · rw [ends_attachTargets_kept hsame, requested_cons_kept hsame]
      exact ih h
    · rw [requested_cons_changed hne]
      have hfirst := attach_settling h target
      cases hresult : (attach target g).result with
      | error fault =>
        rw [ends_attachTargets_unattached hne hresult]
        exact hfirst.of_subset (by simp)
      | ok rep =>
        rw [ends_attachTargets_attached hne hresult]
        exact (ih (attach_kept h target)).imp fun _ _ hrest => hfirst.trans hrest

/-- The target of one of the changes has its turn to be attached after those of the changes in
front of it. -/
inductive Turn : List (Slot × Option NodeId) → List (Slot × Option NodeId) → NodeId → Prop where
  | here {slot : Slot} {target : NodeId} {changes : List (Slot × Option NodeId)}
    (h : slot.target ≠ some target) : Turn ((slot, some target) :: changes) [] target
  | later {change : Slot × Option NodeId} {changes front : List (Slot × Option NodeId)}
    {target : NodeId}
    (h : Turn changes front target) : Turn (change :: changes) (change :: front) target

/-- Who has its turn is one of those asked for, behind those asked for in front of it. -/
theorem Turn.requested_eq {front : List (Slot × Option NodeId)} (h : Turn changes front target) :
    ∃ rest, requested changes = requested front ++ target :: rest := by
  induction h with
  | here hne => exact ⟨_, requested_cons_changed hne⟩
  | @later change changes front target _ ih =>
    obtain ⟨rest, hrest⟩ := ih
    rcases kept_or_changed change with hsame | ⟨slot, first, rfl, hne⟩
    · exact ⟨rest, by rw [requested_cons_kept hsame, requested_cons_kept hsame, hrest]⟩
    · exact ⟨rest, by rw [requested_cons_changed hne, requested_cons_changed hne, hrest,
        List.cons_append]⟩

/-- Turns by the first change: it has its turn at once if it asks for a new target, and the others
have theirs with it in front. -/
theorem forall_turn_cons {P : List (Slot × Option NodeId) → NodeId → Prop} :
    (∀ front target, Turn (change :: changes) front target → P front target) ↔
      (∀ slot target, change = (slot, some target) → slot.target ≠ some target → P [] target) ∧
      ∀ front target, Turn changes front target → P (change :: front) target := by
  constructor
  · intro hall
    refine ⟨?_, fun front target hturn => hall _ _ (.later hturn)⟩
    rintro slot target rfl hne
    exact hall _ _ (.here hne)
  · rintro ⟨hfirst, hrest⟩ front target hturn
    cases hturn with
    | here hne => exact hfirst _ _ rfl hne
    | later hturn => exact hrest _ _ hturn

theorem map_eq_ok_iff {ε α β : Type} {r : Except ε α} {f : α → β} {b : β} :
    r.map f = .ok b ↔ ∃ a, r = .ok a ∧ f a = b := by
  cases r <;> simp [Except.map]

theorem exists_map_eq_ok {ε α β : Type} {r : Except ε α} {f : α → β} :
    (∃ b, r.map f = .ok b) ↔ ∃ a, r = .ok a := by
  simp [map_eq_ok_iff]

/-- **Attaching targets succeeds if each can be attached when it has its turn.** -/
theorem attachTargets_eq_ok_iff (h : g.Kept) (changes : List (Slot × Option NodeId)) :
    (attachTargets changes).Ends g fun r _ => (∃ got, r = .ok got) ↔
      ∀ front target, Turn changes front target →
        (attachTargets front g).state.Attachable target := by
  induction changes generalizing g with
  | nil => exact iff_of_true ⟨[], rfl⟩ fun _ _ hturn => nomatch hturn
  | cons change changes ih =>
    rw [forall_turn_cons]
    rcases kept_or_changed change with hsame | ⟨slot, target, rfl, hne⟩
    -- Without anything to attach for the first change, the graph at the turn of a later one is the
    -- same with it and without it.
    · have hstate : ∀ front, (attachTargets (change :: front) g).state
          = (attachTargets front g).state :=
        fun front => (ends_attachTargets_kept hsame (Q := fun _ g' => g' = _)).mpr rfl
      have hnone : ∀ slot target, change = (slot, some target) → ¬ slot.target ≠ some target := by
        rintro slot target rfl hne
        exact hsame.elim hne (by simp)
      rw [ends_attachTargets_kept hsame]
      refine (ih h).imp fun r g' hiff => ?_
      rw [exists_map_eq_ok, hiff, and_iff_right fun slot target heq hne =>
        (hnone slot target heq hne).elim]
      simp only [hstate]
    · cases hresult : (attach target g).result with
      | error fault =>
        rw [ends_attachTargets_unattached hne hresult]
        -- The first one is refused, so it cannot be attached at its own turn.
        refine iff_of_false (by simp) fun hall => ?_
        obtain ⟨rep, hok⟩ := (attach_eq_ok_iff h).mpr (hall.1 slot target rfl hne)
        rw [hresult] at hok
        exact absurd hok (by simp)
      | ok rep =>
        have hstate : ∀ front, (attachTargets ((slot, some target) :: front) g).state
            = (attachTargets front (attach target g).state).state :=
          fun front => (ends_attachTargets_attached hne hresult (Q := fun _ g' => g' = _)).mpr rfl
        have hfirst : ∀ slot' target', (slot, some target) = (slot', some target') →
            slot'.target ≠ some target' → (attachTargets [] g).state.Attachable target' := by
          rintro slot' target' ⟨⟩ -
          exact (attach_eq_ok_iff h).mp ⟨rep, hresult⟩
        rw [ends_attachTargets_attached hne hresult]
        refine (ih (attach_kept h target)).imp fun r g' hiff => ?_
        rw [exists_map_eq_ok, hiff, and_iff_right hfirst]
        simp only [hstate]

/-- **A target is lost**: when it has its turn it asks for a node that was deleted. -/
def Lost (g : Graph) (changes : List (Slot × Option NodeId)) : Prop :=
  ∃ front target id node, Turn changes front target ∧
    (attachTargets front g).state.AsksFor target id ∧
    (attachTargets front g).state.node? id = some node ∧ node.state = .deleted

/-- **Targets that can be attached by themselves are attached one after the other unless one is
lost.** -/
theorem attachTargets_eq_ok_iff_not_lost (h : g.Kept)
    (hattachable : ∀ target ∈ requested changes, g.Attachable target) :
    (∃ got, (attachTargets changes g).result = .ok got) ↔ ¬ g.Lost changes := by
  rw [show (∃ got, (attachTargets changes g).result = .ok got) ↔
    _ from attachTargets_eq_ok_iff h changes]
  -- By `Settling`, a target that could be attached in the beginning still can be at its turn,
  -- unless a node it asks for was deleted in between.
  have hturns : ∀ {front target}, Turn changes front target →
      ((attachTargets front g).state.Attachable target ↔ ∀ {id node},
        (attachTargets front g).state.AsksFor target id →
        (attachTargets front g).state.node? id = some node → node.state ≠ .deleted) := by
    intro front target hturn
    obtain ⟨rest, hrest⟩ := hturn.requested_eq
    have hsettling : g.Settling (requested front) (attachTargets front g).state :=
      attachTargets_settling h front
    exact hsettling.attachable_iff (hattachable target (by simp [hrest]))
  constructor
  · rintro hall ⟨front, target, id, node, hturn, hasks, hnode, hdeleted⟩
    exact (hturns hturn).mp (hall front target hturn) hasks hnode hdeleted
  · intro hnot front target hturn
    exact (hturns hturn).mpr fun hasks hnode hdeleted =>
      hnot ⟨_, _, _, _, hturn, hasks, hnode, hdeleted⟩

/-- No unique node is asked for by both. -/
def Apart (g : Graph) (target other : NodeId) : Prop :=
  ∀ id node, g.AsksFor target id → g.AsksFor other id → g.node? id = some node →
    node.state = .detached →
    node.kind.isUnique = false

/-- **Targets of which no two ask for the same unique node are not lost.** -/
theorem not_lost_of_apart (h : g.Kept)
    (hattachable : ∀ target ∈ requested changes, g.Attachable target)
    (hapart : (requested changes).Pairwise g.Apart) : ¬ g.Lost changes := by
  rintro ⟨front, target, id, node', hturn, hasks, hnode', hdeleted⟩
  obtain ⟨rest, hrest⟩ := hturn.requested_eq
  have hsettling : g.Settling (requested front) (attachTargets front g).state :=
    attachTargets_settling h front
  have hbefore := hsettling.asksFor hasks
  obtain ⟨node, hnode, hgone | ⟨hdetached, hunique, root, hroot, hasks'⟩⟩ :=
    hsettling.deleted hnode' hdeleted
  · exact ((hattachable target (by simp [hrest])).of_asksFor hbefore).state_ne_deleted hnode hgone
  · rw [hrest] at hapart
    have hpair := (List.pairwise_append.mp hapart).2.2 root hroot target (by simp)
    rw [hpair id node hasks' hbefore hnode hdetached] at hunique
    exact absurd hunique (by simp)

/-- **Each slot gets the member that stands for its target.**  A target a slot has already is a
member and stands for itself; one that is attached has who stands for it as the answer, and stays
represented while the others are attached. -/
theorem attachTargets_represents (h : g.Kept)
    (hfilled : ∀ change ∈ changes, ∀ target, change.1.target = some target →
      ∃ payload, g.member? target = some payload) :
    (attachTargets changes).Ends g fun r g' => ∀ got, r = .ok got →
      List.Forall₂ (Option.Rel (Represents g g')) (changes.map Prod.snd) got := by
  induction changes generalizing g with
  | nil =>
    intro got hok
    obtain rfl := Except.ok.inj hok
    exact .nil
  | cons change changes ih =>
    have hrest := fun change hin => hfilled change (List.mem_cons_of_mem _ hin)
    rcases kept_or_changed change with hsame | ⟨slot, target, rfl, hne⟩
    · have hsettling : g.Settling _ (attachTargets changes g).state :=
        attachTargets_settling h changes
      rw [ends_attachTargets_kept hsame]
      intro got hok
      obtain ⟨rest, hok', rfl⟩ := map_eq_ok_iff.mp hok
      refine .cons ?_ (ih h hrest rest hok')
      rcases hsame with hsame | hnone
      · cases htarget : change.2 with
        | none => exact .none
        | some target =>
          obtain ⟨payload, hmember⟩ :=
            hfilled change List.mem_cons_self target (hsame.trans htarget)
          exact .some (represents_of_member hmember (hsettling.grown.member? hmember))
      · rw [hnone]
        exact .none
    · cases hresult : (attach target g).result with
      | error fault =>
        rw [ends_attachTargets_unattached hne hresult]
        exact fun _ hbad => absurd hbad (by simp)
      | ok rep =>
        have hfirst := attach_settling h target
        have hkept := attach_kept h target
        have hsettling : (attach target g).state.Settling _
          (attachTargets changes (attach target g).state).state :=
            attachTargets_settling hkept changes
        rw [ends_attachTargets_attached hne hresult]
        intro got hok
        obtain ⟨rest, hok', rfl⟩ := map_eq_ok_iff.mp hok
        refine .cons (.some ((attach_represents h hresult).1.trans_grown hsettling.grown)) ?_
        refine (ih hkept (fun change hin target' htarget => ?_) rest hok').imp
          fun requested given hrel => ?_
        · obtain ⟨payload, hmember⟩ := hrest change hin target' htarget
          exact ⟨payload, hfirst.grown.member? hmember⟩
        · cases hrel with
          | none => exact .none
          | some hrep => exact .some (hfirst.represents hrep)

/-! ## 3. Redirecting one sort of edges -/

variable {assign : List (Option NodeId) → Payload → Payload}

/-- **Redirecting gives the slots what attaching the targets came to.** -/
theorem retarget_of_attached (h : g.Kept) (howner : g.member? owner = some payload)
    (hside : payload.IsSide slots assign) (hself : assign (slots.map Slot.target) payload = payload)
    (hlen : slots.length = targets.length)
    (hcheck : g.checkTargets owner (slots.zip targets) = .ok ())
    (hok : (attachTargets (slots.zip targets) g).result = .ok got) :
    (retarget owner slots targets assign).Ends g fun r g' =>
      (∃ changed, r = .ok changed) ∧ slots.length = got.length ∧
      (∀ change ∈ slots.zip got, change.1.Takes change.2) ∧
        g'.member? owner = some (assign got payload) ∧
      List.Forall₂ (Option.Rel (Represents g g')) targets got := by
  have hslots : ∀ slot ∈ slots, slot ∈ payload.slots := fun slot hslot =>
    hside.choose_spec.1.mem_iff.mpr (List.mem_append_left _ hslot)
  obtain ⟨-, hgrown, hresolved⟩ := attachTargets_ends h (slots.zip targets)
  obtain ⟨hlen', hfills⟩ := fills_of_resolved h hgrown howner hslots hlen hcheck (hresolved got hok)
  have htakes := fun change hchange => (hfills change hchange).1
  -- Who stands for the targets is known of the graph before the edges are overwritten.
  have hreceived :
    List.Forall₂ (Option.Rel (Represents g (attachTargets (slots.zip targets) g).state))
      targets got := by
    have hrepresents := attachTargets_represents h (fun change hchange target htarget => ?_) got hok
    · rwa [List.map_snd_zip (by omega)] at hrepresents
    · obtain ⟨found, hfound, -⟩ := (fills_some htarget).mp
        (h.filled howner change.1 (hslots _ (List.of_mem_zip hchange).1))
      exact ⟨found, hfound⟩
  have howner' := hgrown.member? howner
  refine (retarget_ends g owner slots targets assign).imp fun r g' hredirected => ?_
  -- The first two cases are the refusals, which the check and the attaching exclude.  Without a
  -- change the slots have been given what they had; otherwise the owner is overwritten, which
  -- moves no unique member.
  cases hredirected with
  | refused hbad =>
    rw [hcheck] at hbad
    exact absurd hbad (by simp)
  | unattached _ hbad =>
    rw [hok] at hbad
    exact absurd hbad (by simp)
  | unchanged _ htargets hsame =>
    obtain rfl := Except.ok.inj (hok.symm.trans htargets)
    obtain rfl := (forall_zip_target_eq_iff hlen').mp hsame
    exact ⟨⟨_, rfl⟩, hlen', htakes, hself.symm ▸ howner', hreceived⟩
  | changed _ htargets =>
    obtain rfl := Except.ok.inj (hok.symm.trans htargets)
    refine ⟨⟨_, rfl⟩, hlen', htakes, by rw [member?_overwrite howner', if_pos rfl], ?_⟩
    refine hreceived.imp fun requested given hrel => ?_
    cases hrel with
    | none => exact .none
    | some hrep =>
      obtain ⟨others, -, hassign⟩ := hside
      exact .some (hrep.overwrite howner' (hassign got hlen' htakes).2.2)

/-- A target that is refused refuses the redirection, with the same fault. -/
theorem retarget_of_unattached (hcheck : g.checkTargets owner (slots.zip targets) = .ok ())
    (hfault : (attachTargets (slots.zip targets) g).result = .error fault) :
    (retarget owner slots targets assign).Ends g fun r _ => r = .error fault := by
  refine (retarget_ends g owner slots targets assign).imp fun r g' hredirected => ?_
  cases hredirected with
  | refused hbad =>
    rw [hcheck] at hbad
    exact absurd hbad (by simp)
  | unattached _ hfault' => rw [Except.error.inj (hfault.symm.trans hfault')]
  | unchanged _ hbad =>
    rw [hfault] at hbad
    exact absurd hbad (by simp)
  | changed _ hbad =>
    rw [hfault] at hbad
    exact absurd hbad (by simp)

/-- **What redirecting comes to if each changed target by itself fits and can be attached.**
`side` reads the targets of the edges in question off a payload and `other` those of the other
edges. -/
structure Answered (g : Graph) (owner : NodeId) (payload : Payload)
    (changes : List (Slot × Option NodeId))
    (side other : Payload → List (Option NodeId)) (r : Except Fault Bool) (g' : Graph) : Prop where
  ok_iff : (∃ changed, r = .ok changed) ↔ ¬ g.Lost changes
  ok_of_apart : (requested changes).Pairwise g.Apart → ∃ changed, r = .ok changed
  received : ∀ changed, r = .ok changed → ∃ payload', g'.member? owner = some payload' ∧
    List.Forall₂ (Option.Rel (Represents g g')) (changes.map Prod.snd) (side payload') ∧
    other payload' = other payload
  single : ∀ id rep rep', Represents g g' id rep → Represents g g' id rep' → rep = rep'

/-- **Redirecting one sort of edges succeeds exactly if nothing is lost.**  What is left to
attaching the targets is only carried over here: `hassign` reads the targets back off the payload
they were assigned to. -/
theorem retarget_answers (h : g.Kept) (howner : g.member? owner = some payload)
    (hside : payload.IsSide slots assign) (hself : assign (slots.map Slot.target) payload = payload)
    {side other : Payload → List (Option NodeId)}
    (hassign : ∀ given, slots.length = given.length →
      (∀ change ∈ slots.zip given, change.1.Takes change.2) →
      side (assign given payload) = given ∧ other (assign given payload) = other payload)
    (hlen : slots.length = targets.length)
    (hcheck : g.checkTargets owner (slots.zip targets) = .ok ())
    (hattach : ∀ target ∈ requested (slots.zip targets), ∃ rep,
      (attach target g).result = .ok rep) :
    (retarget owner slots targets assign).Ends g
      (Answered g owner payload (slots.zip targets) side other) := by
  have hattachable := fun target hin => (attach_eq_ok_iff h).mp (hattach target hin)
  have hiff := attachTargets_eq_ok_iff_not_lost h hattachable
  have hkept : (retarget owner slots targets assign).Ends g fun _ g' => g'.Kept :=
    retarget_kept h howner hside hlen
  have hok_iff : (∃ changed, (retarget owner slots targets assign g).result = .ok changed) ↔
      ¬ g.Lost (slots.zip targets) := by
    rw [← hiff]
    cases htargets : (attachTargets (slots.zip targets) g).result with
    | error fault =>
      have hfault : (retarget owner slots targets assign g).result = .error fault :=
        retarget_of_unattached hcheck htargets
      simp [hfault]
    | ok got =>
      exact iff_of_true (retarget_of_attached h howner hside hself hlen hcheck htargets).1
        ⟨got, rfl⟩
  refine ⟨hok_iff, fun hapart => hok_iff.mpr (not_lost_of_apart h hattachable hapart), ?_,
    fun _ _ _ hrep hrep' => hrep.eq hkept hrep'⟩
  intro changed hok
  obtain ⟨got, htargets⟩ := hiff.mpr (hok_iff.mp ⟨changed, hok⟩)
  obtain ⟨-, hlen', htakes, howner', hreceived⟩ :=
    retarget_of_attached h howner hside hself hlen hcheck htargets
  obtain ⟨hgiven, hothers⟩ := hassign got hlen' htakes
  rw [List.map_snd_zip (by omega)]
  exact ⟨_, howner', hgiven.symm ▸ hreceived, hothers⟩

/-! ## 4. One new target -/

/-- What was deleted cannot be attached. -/
theorem attach_of_deleted (h : g.Kept) (hnode : g.node? id = some node)
    (hdeleted : node.state = .deleted) :
    (attach id g).result = .error (.deleted id) := by
  have henter : (⟨g, [], Table.empty⟩ : Attachment).enter id = .error (.deleted id) := by
    simp [Attachment.enter, Table.contains, Table.get?_empty, Graph.node, hnode, hdeleted,
      bind, Except.bind, throw, throwThe, MonadExceptOf.throw]
  exact (attach_of_blocked h (.here henter)).1

/-- There is nothing to attach where every new target is a member. -/
theorem attachTargets_of_members (h : g.Kept)
    (hmembers : ∀ target ∈ requested changes, g.isActive target = true) :
    (attachTargets changes).Ends g fun r g' => r = .ok (changes.map Prod.snd) ∧ g' = g := by
  refine attachTargets_of_no_newcomer h (List.find?_eq_none.mpr fun target hin => ?_)
  simp [hmembers target hin]

/-- A deleted target is refused to the first slot that asks for it. -/
theorem attachTargets_of_deleted (h : g.Kept) (hnode : g.node? new = some node)
    (hdeleted : node.state = .deleted) {count : Nat}
    (hrequested : requested changes = List.replicate (count + 1) new) :
    (attachTargets changes).Ends g fun r _ => r = .error (.deleted new) := by
  induction changes with
  | nil => exact absurd hrequested (by simp [requested])
  | cons change changes ih =>
    rcases kept_or_changed change with hsame | ⟨slot, target, rfl, hne⟩
    · rw [requested_cons_kept hsame] at hrequested
      rw [ends_attachTargets_kept hsame]
      refine (ih hrequested).imp fun r _ hfault => ?_
      rw [hfault]
      rfl
    · rw [requested_cons_changed hne, List.replicate_succ] at hrequested
      obtain ⟨rfl, -⟩ := List.cons.inj hrequested
      rw [ends_attachTargets_unattached hne (attach_of_deleted h hnode hdeleted)]

/-- The target a change comes to if `rep` stands for every new one. -/
def settledBy (rep : NodeId) (change : Slot × Option NodeId) : Option NodeId :=
  if change.1.target = change.2 then change.2 else change.2.map fun _ => rep

theorem settledBy_of_kept (h : change.1.target = change.2 ∨ change.2 = none) :
    settledBy rep change = change.2 := by
  unfold settledBy
  split
  · rfl
  · rename_i hne
    rw [h.resolve_left hne, Option.map_none]

theorem settledBy_of_changed (h : slot.target ≠ some target) :
    settledBy rep (slot, some target) = some rep := if_neg h

/-- **A target that several slots ask for is attached for all of them if it stays**, and one that a
single slot asks for in any case. -/
theorem attachTargets_of_one (h : g.Kept) (hok : (attach new g).result = .ok rep) {count : Nat}
    (hrequested : requested changes = List.replicate count new) (hcount : rep = new ∨ count ≤ 1) :
    (attachTargets changes).Ends g fun r _ => r = .ok (changes.map (settledBy rep)) := by
  induction changes with
  | nil => rfl
  | cons change changes ih =>
    rcases kept_or_changed change with hsame | ⟨slot, target, rfl, hne⟩
    · rw [requested_cons_kept hsame] at hrequested
      rw [ends_attachTargets_kept hsame]
      refine (ih hrequested).imp fun r _ hrest => ?_
      rw [hrest, List.map_cons, settledBy_of_kept hsame, Except.map]
    · rw [requested_cons_changed hne] at hrequested
      obtain ⟨less, rfl⟩ : ∃ less, count = less + 1 :=
        Nat.exists_eq_succ_of_ne_zero fun hzero => absurd hrequested (by simp [hzero])
      obtain ⟨rfl, hrest⟩ := List.cons.inj hrequested
      -- From here on the target is a member, or nobody asks for it again.
      have hagain : ∀ other ∈ requested changes, other = target ∧ rep = target := by
        intro other hin
        rw [hrest] at hin
        refine ⟨List.eq_of_mem_replicate hin, hcount.resolve_right fun hle => ?_⟩
        obtain rfl : less = 0 := by omega
        exact absurd hin List.not_mem_nil
      obtain ⟨payload, hmember, -⟩ := attach_member h hok
      -- So every later change comes to what is asked for already.
      have hsettled : changes.map Prod.snd = changes.map (settledBy rep) := by
        refine List.map_congr_left fun change hin => ?_
        rcases kept_or_changed change with hsame | ⟨slot', other, rfl, hne'⟩
        · rw [settledBy_of_kept hsame]
        · obtain ⟨rfl, rfl⟩ := hagain other (List.mem_filterMap.mpr ⟨_, hin, if_neg hne'⟩)
          rw [settledBy_of_changed hne']
      rw [ends_attachTargets_attached hne hok]
      refine (attachTargets_of_members (attach_kept h target) fun other hin => ?_).imp
        fun r _ ⟨hdone, _⟩ => ?_
      · obtain ⟨rfl, rfl⟩ := hagain other hin
        exact isActive_iff.mpr ⟨payload, hmember⟩
      · rw [hdone, List.map_cons, settledBy_of_changed hne, hsettled, Except.map]

/-- **A target for which another member stands is lost to the second slot that asks for it.** -/
theorem attachTargets_of_two (h : g.Kept) (hok : (attach new g).result = .ok rep)
    (hother : rep ≠ new)
    {count : Nat} (hrequested : requested changes = List.replicate (count + 2) new) :
    (attachTargets changes).Ends g fun r _ => r = .error (.deleted new) := by
  induction changes with
  | nil => exact absurd hrequested (by simp [requested])
  | cons change changes ih =>
    rcases kept_or_changed change with hsame | ⟨slot, target, rfl, hne⟩
    · rw [requested_cons_kept hsame] at hrequested
      rw [ends_attachTargets_kept hsame]
      refine (ih hrequested).imp fun r _ hfault => ?_
      rw [hfault]
      rfl
    · rw [requested_cons_changed hne, List.replicate_succ] at hrequested
      obtain ⟨rfl, hrest⟩ := List.cons.inj hrequested
      -- The first slot gets the member that has the payload, and the node is gone for the second.
      obtain ⟨node, hnode, hdeleted⟩ := (attach_represents h hok).2 hother
      rw [ends_attachTargets_attached hne hok]
      refine (attachTargets_of_deleted (attach_kept h target) hnode hdeleted hrest).imp
        fun r _ hfault => ?_
      rw [hfault]
      rfl

/-- The slots with `new` for `old`. -/
def replacing (slots : List Slot) (old new : NodeId) : List (Slot × Option NodeId) :=
  slots.map fun slot => (slot, if slot.target = some old then some new else slot.target)

/-- The changes that replacing an input makes, as redirecting pairs them up. -/
theorem zip_replacing (slots : List Slot) (old new : NodeId) :
    slots.zip ((slots.map Slot.target).map fun target =>
      if target = some old then some new else target)
      = replacing slots old new := by
  rw [List.map_map]
  conv_lhs => rw [← List.map_id slots]
  rw [List.map_map, List.zip_map']
  rfl

/-- As many slots ask for `new` as have `old`. -/
theorem requested_replacing (old : NodeId) (hne : ∀ slot ∈ slots, slot.target ≠ some new) :
    requested (replacing slots old new)
      = List.replicate ((slots.map Slot.target).count (some old)) new := by
  induction slots with
  | nil => rfl
  | cons slot slots ih =>
    have hrest := ih fun slot hin => hne slot (List.mem_cons_of_mem _ hin)
    rw [replacing, List.map_cons, List.map_cons, List.count_cons]
    by_cases hold : slot.target = some old
    · rw [if_pos hold, requested_cons_changed (hne slot List.mem_cons_self)]
      simp [hold, List.replicate_succ, ← hrest, replacing]
    · rw [if_neg hold, requested_cons_kept (.inl rfl)]
      simp [hold, ← hrest, replacing]

/-- What the slots come to if `rep` stands for `new`: `rep` wherever `old` was. -/
theorem map_settledBy_replacing (old rep : NodeId) (hne : ∀ slot ∈ slots, slot.target ≠ some new) :
    (replacing slots old new).map (settledBy rep)
      = (slots.map Slot.target).map fun target =>
        if target = some old then some rep else target := by
  rw [replacing, List.map_map, List.map_map]
  refine List.map_congr_left fun slot hin => ?_
  by_cases hold : slot.target = some old
  · simp only [Function.comp_apply, if_pos hold]
    exact settledBy_of_changed (hne slot hin)
  · simp only [Function.comp_apply, if_neg hold]
    exact settledBy_of_kept (.inl rfl)

/-- The check has nothing to say about a replacement if the node is there and fits the slots it is
wanted for. -/
theorem checkTargets_replacing (owner : NodeId) (hnode : g.node? new = some node)
    (hstate : node.state ≠ .deleted) (hne : ∀ slot ∈ slots, slot.target ≠ some new)
    (hfits : ∀ slot ∈ slots, slot.target = some old → node.kind.isA slot.family = true) :
    g.checkTargets owner (replacing slots old new) = .ok () := by
  refine (forM_eq_ok_iff _ _).mpr fun change hchange => ?_
  obtain ⟨slot, hslot, rfl⟩ := List.mem_map.mp hchange
  by_cases hold : slot.target = some old
  · simp only [if_pos hold]
    rw [if_neg (hne slot hslot)]
    exact Attachment.checkSlot_some_iff.mpr ⟨node, hnode, hstate, hfits slot hslot hold⟩
  · simp only [if_neg hold, if_true]

/-- No slot of a member has a detached target. -/
theorem Kept.target_ne (h : g.Kept) (howner : g.member? owner = some payload)
    (hslot : slot ∈ payload.slots)
    (hnode : g.node? id = some node) (hstate : node.state = .detached) : slot.target ≠ some id := by
  intro htarget
  obtain ⟨found, hfound, -⟩ := (fills_some htarget).mp (h.filled howner slot hslot)
  obtain ⟨node', hnode', hactive, -⟩ := member?_eq_some_iff.mp hfound
  obtain rfl := Option.some.inj (hnode.symm.trans hnode')
  rw [hstate] at hactive
  exact absurd hactive (by simp)

/-- **Letting inputs read `new` for `old`** succeeds exactly if `new` stays or one input at most
reads `old`. -/
theorem replaceInput_answers (h : g.Kept) (howner : g.member? owner = some payload)
    (hnode : g.node? new = some node) (hstate : node.state = .detached)
    (hok : (attach new g).result = .ok rep)
    (hfits : ∀ slot ∈ payload.inputSlots, slot.target = some old →
      node.kind.isA slot.family = true) :
    (replaceInput owner old new).Ends g fun r g' =>
      (rep = new ∨ payload.inputs.count (some old) ≤ 1 →
        (∃ changed, r = .ok changed) ∧ (some old ∈ payload.inputs → Represents g g' new rep) ∧
        ∃ payload', g'.member? owner = some payload' ∧
          payload'.inputs
            = payload.inputs.map (fun target => if target = some old then some rep else target) ∧
          payload'.successors = payload.successors) ∧
      (¬ (rep = new ∨ payload.inputs.count (some old) ≤ 1) → r = .error (.deleted new)) := by
  have hslots : ∀ slot ∈ payload.inputSlots, slot.target ≠ some new := fun slot hslot =>
    h.target_ne howner (List.mem_append_left _ hslot) hnode hstate
  have hcheck := checkTargets_replacing owner hnode (by simp [hstate]) hslots hfits
  have hzip : payload.inputSlots.zip
      (payload.inputs.map fun target => if target = some old then some new else target)
      = replacing payload.inputSlots old new := zip_replacing payload.inputSlots old new
  have hrequested : requested (replacing payload.inputSlots old new)
      = List.replicate (payload.inputs.count (some old)) new := requested_replacing old hslots
  rw [replaceInput, redirectInputs, redirectInputsAt, ends_redirectAt_iff howner, ← Payload.inputs]
  rw [← hzip] at hcheck
  refine ⟨fun hcount => ?_, fun hcount => ?_⟩
  -- Attaching succeeds for all the slots, and they are given `rep` for `old`.
  · have hgot : (attachTargets (replacing payload.inputSlots old new) g).result
        = .ok (payload.inputs.map fun target =>
          if target = some old then some rep else target) := by
      rw [Payload.inputs, ← map_settledBy_replacing old rep hslots]
      exact attachTargets_of_one h hok hrequested hcount
    rw [← hzip] at hgot
    obtain ⟨hr, hlen, htakes, howner', hreceived⟩ :=
      retarget_of_attached h howner payload.isSide_inputs
      payload.assignInputs_inputs (by simp [Payload.inputs]) hcheck hgot
    refine ⟨hr, fun hin => ?_, _, howner', Payload.inputs_assignInputs hlen htakes,
      by simp [Payload.successors]⟩
    obtain ⟨-, hpairs⟩ := List.forall₂_iff_zip.mp hreceived
    have hpair := @hpairs (some new) (some rep) ?_
    · cases hpair with
      | some hrep => exact hrep
    · rw [List.zip_map']
      exact List.mem_map.mpr ⟨some old, hin, by simp⟩
  -- Two slots at least ask for a node that does not stay.
  · obtain ⟨hother, hmany⟩ := not_or.mp hcount
    obtain ⟨count, hcount⟩ : ∃ count, payload.inputs.count (some old) = count + 2 :=
      Nat.exists_eq_add_of_le' (by omega)
    rw [hcount] at hrequested
    refine retarget_of_unattached hcheck ?_
    rw [hzip]
    exact attachTargets_of_two h hok hother hrequested

/-! ## 5. Every redirection on a reachable graph -/

/-- **What redirecting the edges of a member to nodes that can be attached comes to.**

Letting the inputs that read `old` read a detached node instead succeeds if that node stays, or if
one input at most reads `old`; then they all read the member that stands for the node, and the
other edges are as they were.  Otherwise the node is deleted for the first of the inputs and
refused to the second.

Any other redirection succeeds exactly if no target is lost, and gives every slot the member that
stands for its target. -/
theorem Reachable.redirecting_ok_iff_none_lost (h : g.Reachable)
    (howner : g.member? owner = some payload) :
    (∀ old new node rep, g.node? new = some node → node.state = .detached →
      (attach new g).result = .ok rep →
      (∀ slot ∈ payload.inputSlots, slot.target = some old → node.kind.isA slot.family = true) →
      (replaceInput owner old new).Ends g fun r g' =>
        (rep = new ∨ payload.inputs.count (some old) ≤ 1 →
          (∃ changed, r = .ok changed) ∧ (some old ∈ payload.inputs → Represents g g' new rep) ∧
          ∃ payload', g'.member? owner = some payload' ∧
            payload'.inputs
              = payload.inputs.map (fun target => if target = some old then some rep else target) ∧
            payload'.successors = payload.successors) ∧
        (¬ (rep = new ∨ payload.inputs.count (some old) ≤ 1) → r = .error (.deleted new))) ∧
    (∀ f : Nat → Option NodeId → Option NodeId,
      let changes := payload.inputSlots.zip (payload.inputs.mapIdx f)
      g.checkTargets owner changes = .ok () →
      (∀ target ∈ requested changes, ∃ rep, (attach target g).result = .ok rep) →
      (redirectInputsAt owner f).Ends g
        (Answered g owner payload changes Payload.inputs Payload.successors)) ∧
    ∀ f : Nat → Option NodeId → Option NodeId,
      let changes := payload.successorSlots.zip (payload.successors.mapIdx f)
      g.checkTargets owner changes = .ok () →
      (∀ target ∈ requested changes, ∃ rep, (attach target g).result = .ok rep) →
      (redirectSuccessorsAt owner f).Ends g
        (Answered g owner payload changes Payload.successors Payload.inputs) := by
  have hkept := h.kept
  have hactive : ∀ fault, g.requireActive owner ≠ .error fault := by
    intro fault hbad
    rw [requireActive_eq_ok_iff.mpr ⟨payload, howner⟩] at hbad
    exact absurd hbad (by simp)
  refine ⟨fun old new node rep => replaceInput_answers hkept howner, ?_, ?_⟩
  · intro f changes hcheck hattach
    refine ends_onMember (fun fault hbad => absurd hbad (hactive fault)) fun payload' howner' => ?_
    obtain rfl := Option.some.inj (howner.symm.trans howner')
    exact retarget_answers hkept howner payload.isSide_inputs payload.assignInputs_inputs
      (fun given hlen htakes =>
        ⟨Payload.inputs_assignInputs hlen htakes, by simp [Payload.successors]⟩)
      (by simp) hcheck hattach
  · intro f changes hcheck hattach
    refine ends_onMember (fun fault hbad => absurd hbad (hactive fault)) fun payload' howner' => ?_
    obtain rfl := Option.some.inj (howner.symm.trans howner')
    exact retarget_answers hkept howner payload.isSide_successors
      payload.assignSuccessors_successors
      (fun given hlen htakes =>
        ⟨Payload.successors_assignSuccessors hlen htakes, by simp [Payload.inputs]⟩)
      (by simp) hcheck hattach

/-- A sum that reads a register twice, and a detached constant that a member equals. -/
def readTwice : Graph :=
  ([.add (.const (.ofInt 1 (.uint 8))), .add (.readReg "A" (.uint 8)),
    .add (.builtInCall [⟨1⟩, ⟨1⟩] .add (.uint 8)), .create (.const (.ofInt 1 (.uint 8)))] :
      List Move).foldl
      (fun g move => move.after g) (empty "f")

/-- The constant can be attached and fits, but only one of the two inputs can be given it. -/
theorem redirecting_ok_iff_none_lost_readTwice :
    (attach ⟨3⟩ readTwice).result = .ok ⟨0⟩ ∧
    (replaceInput ⟨2⟩ ⟨1⟩ ⟨3⟩ readTwice).result = .error (.deleted ⟨3⟩) ∧
    readTwice.Lost [(.required "args" .value ⟨1⟩, some ⟨3⟩),
      (.required "args" .value ⟨1⟩, some ⟨3⟩)] ∧
    ¬ readTwice.Lost [(.required "args" .value ⟨1⟩, some ⟨3⟩),
      (.required "args" .value ⟨1⟩, some ⟨1⟩)] := by
  have howner : readTwice.member? ⟨2⟩ = some (.builtInCall [⟨1⟩, ⟨1⟩] .add (.uint 8)) := by cbv
  have hnode : readTwice.node? ⟨3⟩ = some { payload := .const (.ofInt 1 (.uint 8)) } := by cbv
  have hok : (attach ⟨3⟩ readTwice).result = .ok ⟨0⟩ := by cbv
  have hreachable : readTwice.Reachable := reachable_foldl "f" _
  obtain ⟨hone, hinputs, -⟩ := hreachable.redirecting_ok_iff_none_lost howner
  have hreplaced : (replaceInput ⟨2⟩ ⟨1⟩ ⟨3⟩ readTwice).result = .error (.deleted ⟨3⟩) :=
    (hone ⟨1⟩ ⟨3⟩ _ ⟨0⟩ hnode rfl hok (by decide)).2 (by decide)
  have hboth := hinputs (fun _ _ => some ⟨3⟩) (by cbv) fun target hin => by
    obtain rfl : target = ⟨3⟩ := List.eq_of_mem_replicate (n := 2) hin
    exact ⟨_, hok⟩
  have hfirst := hinputs (fun place old => if place = 0 then some ⟨3⟩ else old) (by cbv)
    fun target hin => by
    obtain rfl : target = ⟨3⟩ := List.mem_singleton.mp hin
    exact ⟨_, hok⟩
  refine ⟨hok, hreplaced, ?_, hfirst.ok_iff.mp ⟨true, by cbv⟩⟩
  by_contra hnot
  obtain ⟨changed, hbad⟩ := hboth.ok_iff.mpr hnot
  have hfault : (redirectInputsAt ⟨2⟩ (fun _ _ => some ⟨3⟩) readTwice).result
      = .error (.deleted ⟨3⟩) := by cbv
  rw [hfault] at hbad
  exact absurd hbad (by simp)

end Graph

end BehaviorGraph
