/-
# Deep copies

A deep copy of a member is made within its own graph: one detached node for each node that is read
from there, at whatever distance, and nothing else changes (`Graph.DeepCopied`).  What is shared
stays shared: **ways along inputs meet in the copy exactly if they meet in the original**
(`DeepCopied.follow_eq_iff`).

The copy is no member yet.  Attaching it always succeeds, and then each node of it stands for
itself, apart from the unique ones, for which the originals stand (`Graph.Rejoined`).  So nothing
of the original changes but the usages of its unique nodes, and written out as a term the copy is
what the original is (`Rejoined.unfolds`).
-/
import BehaviorGraph.Proofs.Importing
import BehaviorGraph.Proofs.Terms

namespace BehaviorGraph

namespace Graph

variable {g g' : Graph} {id other root : NodeId} {payload : Payload} {node : Node}
  {copyOf : NodeId → NodeId}

/-! ## 1. The copies -/

/-- **What is read from a node does not read itself**, at whatever distance. -/
def AcyclicFrom (g : Graph) (id : NodeId) : Prop :=
  ∀ other, Relation.ReflTransGen g.ReadsFrom id other → ¬ Relation.TransGen g.ReadsFrom other other

/-- **A graph with the detached copies of what is read from a node**, each reading copies, and
otherwise the same. -/
structure DeepCopied (g : Graph) (id : NodeId) (copyOf : NodeId → NodeId) (g' : Graph) : Prop where
  /-- The copy of a node is a new one that is not a member, has no users and no successors. -/
  copied : ∀ {other}, Relation.ReflTransGen g.ReadsFrom id other → ∃ payload,
    g.member? other = some payload ∧
    g.nodes.size ≤ (copyOf other).index ∧
    g'.node? (copyOf other) = some ⟨payload.duplicate copyOf, .detached, false, []⟩
  /-- There are no new nodes but these. -/
  covered : ∀ {place : NodeId}, g.nodes.size ≤ place.index → place.index < g'.nodes.size →
    ∃ other, Relation.ReflTransGen g.ReadsFrom id other ∧ copyOf other = place
  /-- Each is the copy of one node. -/
  distinct : ∀ {other other'}, Relation.ReflTransGen g.ReadsFrom id other →
    Relation.ReflTransGen g.ReadsFrom id other' → copyOf other = copyOf other' → other = other'
  old : ∀ {other : NodeId}, other.index < g.nodes.size → g'.node? other = g.node? other
  pool : g'.pool = g.pool
  name : g'.name = g.name
  owner : g'.owner = g.owner

theorem follows_empty (g : Graph) : g.Follows Table.empty = g.ReadsFrom := by
  funext user target
  simp [Follows, Table.get?_empty]

theorem behind_empty :
    g.Behind Table.empty id other ↔ Relation.ReflTransGen g.ReadsFrom id other := by
  simp [Behind, Table.get?_empty, follows_empty]

theorem size_le_idBound (g : Graph) : g.nodes.size ≤ g.idBound := by
  have hfold : ∀ (ids : List NodeId) (start : Nat),
      start ≤ ids.foldl (fun bound id => if bound ≤ id.index then id.index + 1
        else bound) start := by
    intro ids
    induction ids with
    | nil => exact fun _ => Nat.le_refl _
    | cons first ids ih =>
      intro start
      refine Nat.le_trans ?_ (ih _)
      dsimp only
      split <;> omega
  exact hfold _ _

/-- The graph itself shows its members while it grows at its end. -/
theorem Copying.shows_self (g : Graph) : Copying.Shows (fun between => between) g g := by
  intro between hold id payload hmember
  obtain ⟨node, hnode, hstate, rfl⟩ := member?_eq_some_iff.mp hmember
  exact member?_eq_some_iff.mpr ⟨node, by rw [hold (lt_size_of_node? hnode), hnode], hstate, rfl⟩

/-- **Copying a member ends in a cycle that is read from there, or in copies of everything.** -/
theorem Kept.copy_duplicates (h : g.Kept) (hmember : g.member? id = some payload) :
    (¬ g.AcyclicFrom id ∧ ∃ other, (copy id g).result = .error (.cycle other)) ∨
    (g.AcyclicFrom id ∧ ∃ c : Copying, (copy id g).result = .ok (c.copyOf id) ∧
      (copy id g).state = c.transfer.target ∧ Copying.Duplicated g g Table.empty id c ∧
      ∃ place, c.transfer.copies.get? id = some place) := by
  have hwalk := Copying.walk_duplicates (Copying.shows_self g) h hmember
    (Copying.Duplicating.start g g Table.empty id (size_le_idBound g))
  have hentangled : ∀ {other}, g.Entangled Table.empty id other ↔
      Relation.ReflTransGen g.ReadsFrom id other ∧ Relation.TransGen g.ReadsFrom other other := by
    intro other
    rw [Entangled, behind_empty, follows_empty]
  unfold copy
  cases hend : Copying.walk (fun target => target) g.idBound [.enter id] ⟨⟨g, Table.empty⟩, []⟩ with
  | mk result c reports =>
    rw [hend] at hwalk
    rcases hwalk with ⟨rfl, hdone, hroot⟩ | ⟨other, rfl, hcycle⟩
    · refine .inr ⟨fun other hpath hcycle => ?_, c, rfl, rfl, hdone, hroot⟩
      exact hdone.not_entangled hroot (hentangled.mpr ⟨hpath, hcycle⟩)
    · obtain ⟨hpath, hback⟩ := hentangled.mp hcycle
      exact .inl ⟨fun hacyclic => hacyclic other hpath hback, other, rfl⟩

/-- What a walk has duplicated within a graph is a deep copy. -/
theorem Copying.Duplicated.deepCopied {c : Copying} (h : Copying.Duplicated g g Table.empty id c)
    (hroot : ∃ place, c.transfer.copies.get? id = some place)
    (hframe : c.transfer.target.pool = g.pool ∧ c.transfer.target.name = g.name ∧
      c.transfer.target.owner = g.owner) : DeepCopied g id c.copyOf c.transfer.target := by
  have hentry : ∀ {other}, Relation.ReflTransGen g.ReadsFrom id other →
      c.transfer.copies.get? other = some (c.copyOf other) := by
    intro other hpath
    obtain ⟨place, hplace⟩ := h.exists_entry hroot (follows_empty g ▸ hpath)
    rwa [Copying.copyOf_of_get? hplace]
  refine ⟨fun {other} hpath => ?_, fun {place} hle hlt => ?_,
    fun {other other'} hpath hpath' hsame => ?_, h.old, hframe.1, hframe.2.1, hframe.2.2⟩
  · obtain ⟨-, hfresh, payload, hmember, hnode, -⟩ := h.copied (hentry hpath) (Table.get?_empty _)
    exact ⟨payload, hmember, hfresh, hnode⟩
  · obtain ⟨other, hother, hnone⟩ := h.covered hle hlt
    exact ⟨other, behind_empty.mp (h.copied hother hnone).behind, Copying.copyOf_of_get? hother⟩
  · exact h.distinct (hentry hpath) (Table.get?_empty _) (hsame ▸ hentry hpath')
      (Table.get?_empty _)

/-- Copying within a graph touches no record. -/
theorem pool_name_owner_copy (id : NodeId) (g : Graph) :
    (copy id g).state.pool = g.pool ∧ (copy id g).state.name = g.name ∧
    (copy id g).state.owner = g.owner :=
  copy_pushes (P := fun g' => g'.pool = g.pool ∧ g'.name = g.name ∧ g'.owner = g.owner)
    (fun _ _ hsame => hsame) id ⟨rfl, rfl, rfl⟩

/-! ## 2. Ways along inputs -/

/-- **Where a way along inputs leads**, given by the place of the slot at each step. -/
def follow (g : Graph) : NodeId → List Nat → Option NodeId
  | id, [] => some id
  | id, place :: path =>
    ((g.payload? id).bind fun payload => payload.inputs[place]?.join).bind fun next =>
      g.follow next path

/-- A way leads to what is read at some distance. -/
theorem readsFrom_of_follow {path : List Nat} {goal : NodeId} (h : g.Kept)
    (hmember : g.member? id = some payload)
    (hfollow : g.follow id path = some goal) : Relation.ReflTransGen g.ReadsFrom id goal := by
  induction path generalizing id payload with
  | nil =>
    obtain rfl := Option.some.inj hfollow
    exact .refl
  | cons place path ih =>
    rw [follow, payload?_of_member? hmember, Option.bind_some] at hfollow
    obtain ⟨next, hnext, hrest⟩ := Option.bind_eq_some_iff.mp hfollow
    have hin : next ∈ payload.inputEdges :=
      Payload.mem_inputs_iff.mp (List.mem_of_getElem? (Option.join_eq_some_iff.mp hnext))
    obtain ⟨found, hfound⟩ := h.member?_of_mem_inputEdges hmember hin
    exact .head ⟨payload, hmember, hin⟩ (ih hfound hrest)

namespace DeepCopied

/-- **A way from the copy leads to the copy of where it leads from the original.** -/
theorem follow (h : DeepCopied g id copyOf g') (path : List Nat)
    (hother : Relation.ReflTransGen g.ReadsFrom id other) :
    g'.follow (copyOf other) path = (g.follow other path).map copyOf := by
  induction path generalizing other with
  | nil => rfl
  | cons place path ih =>
    obtain ⟨payload, hmember, -, hnode⟩ := h.copied hother
    have hpayload : g'.payload? (copyOf other) = some (payload.duplicate copyOf) := by
      simp [payload?, hnode]
    rw [Graph.follow, Graph.follow, hpayload, payload?_of_member? hmember, Option.bind_some,
      Option.bind_some, Payload.inputs_duplicate, List.getElem?_map]
    cases hnext : payload.inputs[place]? with
    | none => rfl
    | some target =>
      cases target with
      | none => rfl
      | some next =>
        have hin : next ∈ payload.inputEdges :=
          Payload.mem_inputs_iff.mp (List.mem_of_getElem? hnext)
        exact ih (hother.tail ⟨payload, hmember, hin⟩)

/-- **Ways meet in the copy exactly if they meet in the original.** -/
theorem follow_eq_iff (h : DeepCopied g id copyOf g') (hkept : g.Kept)
    (hmember : g.member? id = some payload) (path path' : List Nat) :
    g'.follow (copyOf id) path = g'.follow (copyOf id) path' ↔
      g.follow id path = g.follow id path' := by
  rw [h.follow path .refl, h.follow path' .refl]
  refine ⟨fun hsame => ?_, fun hsame => by rw [hsame]⟩
  cases hgoal : g.follow id path with
  | none =>
    rw [hgoal] at hsame
    exact (Option.map_eq_none_iff.mp hsame.symm).symm
  | some goal =>
    rw [hgoal] at hsame
    obtain ⟨goal', hgoal', hcopies⟩ := Option.map_eq_some_iff.mp hsame.symm
    rw [hgoal', h.distinct (readsFrom_of_follow hkept hmember hgoal')
      (readsFrom_of_follow hkept hmember hgoal) hcopies]

end DeepCopied

/-! ## 3. Terms of what is read -/

/-- **What a node unfolds to along its inputs**: what it is, its edges left aside, and what the
nodes unfold to that it reads, in order. -/
inductive Unfolds (g : Graph) : NodeId → Term → Prop where
  | node {id : NodeId} {payload : Payload} {terms : List Term}
    (hmember : g.member? id = some payload) (hlength : terms.length = payload.inputEdges.length)
    (hreads : ∀ (place : Nat) target term, payload.inputEdges[place]? = some target →
      terms[place]? = some term →
      Unfolds g target term) : Unfolds g id (.node (payload.duplicate fun _ => ⟨0⟩) terms)

namespace Unfolds

variable {term term' : Term}

/-- A node unfolds to one term at most. -/
theorem unique (h : g.Unfolds id term) (h' : g.Unfolds id term') : term = term' := by
  induction h generalizing term' with
  | @node id payload terms hmember hlength hreads ih =>
    obtain ⟨hmember', hlength', hreads'⟩ := h'
    obtain rfl := Option.some.inj (hmember.symm.trans hmember')
    rename_i terms'
    have hterms : terms = terms' := by
      refine List.ext_getElem? fun place => ?_
      cases htarget : payload.inputEdges[place]? with
      | none =>
        rw [List.getElem?_eq_none_iff] at htarget
        rw [List.getElem?_eq_none (by omega), List.getElem?_eq_none (by omega)]
      | some target =>
        have hlt := (List.getElem?_eq_some_iff.mp htarget).1
        have hterm : terms[place]? = some (terms.get ⟨place, by omega⟩) :=
          List.getElem?_eq_getElem _
        have hterm' : terms'[place]? = some (terms'.get ⟨place, by omega⟩) :=
          List.getElem?_eq_getElem _
        rw [hterm, hterm', ih place target _ htarget hterm (hreads' place target _ htarget hterm')]
    rw [hterms]

/-- **A node whose image reads the images of what it reads unfolds to the same term as the image.**
-/
theorem image {image : NodeId → NodeId} (h : g.Unfolds id term) {P : NodeId → Prop}
    (hreads : ∀ {user target}, P user → g.ReadsFrom user target → P target)
    (himage : ∀ {user payload}, P user → g.member? user = some payload →
      g'.member? (image user) = some (payload.duplicate image)) (hid : P id) :
        g'.Unfolds (image id) term := by
  induction h with
  | @node id payload terms hmember hlength hterms ih =>
    have hhead : (payload.duplicate image).duplicate (fun _ => ⟨0⟩)
        = payload.duplicate fun _ => ⟨0⟩ :=
      Payload.duplicate_duplicate _ _ _
    rw [← hhead]
    refine .node (himage hid hmember)
      (by rw [Payload.inputEdges_duplicate, List.length_map, hlength]) ?_
    intro place target term htarget hterm
    rw [Payload.inputEdges_duplicate, List.getElem?_map] at htarget
    obtain ⟨before, hbefore, rfl⟩ := Option.map_eq_some_iff.mp htarget
    exact ih place before term hbefore hterm (hreads hid ⟨payload, hmember,
      List.mem_of_getElem? hbefore⟩)

end Unfolds

/-- **Where everything could be copied, what is read from the node unfolds to a term**, since
places fall. -/
theorem Copying.Duplicated.exists_unfolds {c : Copying}
    (h : Copying.Duplicated g g Table.empty id c)
    (hroot : ∃ place, c.transfer.copies.get? id = some place)
    (hother : Relation.ReflTransGen g.ReadsFrom id other) : ∃ term, g.Unfolds other term := by
  induction hindex : (c.copyOf other).index using Nat.strong_induction_on generalizing other with
  | h index ih =>
    obtain ⟨place, hplace⟩ := h.exists_entry hroot (follows_empty g ▸ hother)
    obtain ⟨payload, hmember, -, hreads⟩ := (h.copied hplace (Table.get?_empty _)).copy
    rw [Copying.copyOf_of_get? hplace] at hindex
    have hterms : ∀ target ∈ payload.inputEdges, ∃ term, g.Unfolds target term := by
      intro target htarget
      obtain ⟨place', hplace', hlt⟩ := hreads target htarget
      refine ih _ (hindex ▸ hlt (Table.get?_empty _)) (hother.tail ⟨payload, hmember, htarget⟩) ?_
      rw [Copying.copyOf_of_get? hplace']
    have : Nonempty Term := ⟨.node payload []⟩
    choose! term hterm using hterms
    refine ⟨_, .node hmember (List.length_map term) fun place target found htarget hfound => ?_⟩
    rw [List.getElem?_map, htarget, Option.map_some] at hfound
    rw [← Option.some.inj hfound]
    exact hterm target (List.mem_of_getElem? htarget)

/-! ## 4. The copy as a member -/

/-- **Who stands for the copy of a node**: the node itself if it is unique, and else the copy. -/
def joinedAs (g : Graph) (copyOf : NodeId → NodeId) (id : NodeId) : NodeId :=
  if g.isA id .unique then id else copyOf id

/-- **The copy of what is read from a node has joined the graph.** -/
structure Rejoined (g : Graph) (id : NodeId) (copyOf : NodeId → NodeId) (g' : Graph) : Prop where
  /-- Whoever stands for a copy is what the original is, without successors, and reads who stands
  for what the original reads. -/
  copied : ∀ {other payload}, Relation.ReflTransGen g.ReadsFrom id other →
    g.member? other = some payload →
    g'.member? (g.joinedAs copyOf other) = some (payload.duplicate (g.joinedAs copyOf))
  /-- The copies of unique nodes were given up. -/
  givenUp : ∀ {other}, Relation.ReflTransGen g.ReadsFrom id other → g.isA other .unique = true →
    ∃ node, g'.node? (copyOf other) = some node ∧ node.state = .deleted
  /-- The nodes of before are what they were, and their users still use them. -/
  old : ∀ {other node}, g.node? other = some node → ∃ node', g'.node? other = some node' ∧
    node'.payload = node.payload ∧ node'.state = node.state ∧ node'.member = node.member ∧
      node.usages <+: node'.usages
  /-- Only unique nodes that are read from the original have got new users. -/
  untouched : ∀ {other : NodeId}, other.index < g.nodes.size →
    ¬ (Relation.ReflTransGen g.ReadsFrom id other ∧ g.isA other .unique = true) →
      g'.node? other = g.node? other

/-- **What is not asked for only gets users.** -/
theorem attach_spares (h : g.Kept) (hnot : ¬ g.InClosure root id) (hnode : g.node? id = some node) :
    ∃ node', (attach root g).state.node? id = some node' ∧ node'.payload = node.payload ∧
      node'.state = node.state ∧ node'.member = node.member ∧ node.usages <+: node'.usages := by
  obtain ⟨a, rest, htracing, hstate, -⟩ := attach_traced h root
  have hnone : a.resolved.get? id = none := by
    refine Option.eq_none_iff_forall_ne_some.mpr fun rep hrep => hnot ?_
    obtain ⟨left, -, hleft, hdetached, -⟩ := (htracing.left hrep).ended
    exact ⟨(htracing.left hrep).asked, left, hleft, hdetached⟩
  obtain ⟨node', hnode', hsame, hpayload⟩ := htracing.spared hnode hnone
  obtain ⟨grown, hgrown, husages⟩ := htracing.walking.grown.node hnode
  obtain rfl := Option.some.inj (hnode'.symm.trans hgrown)
  have hmarked := htracing.walking.kept.marked hnode'
  rw [hsame, ← h.marked hnode] at hmarked
  exact ⟨node', hstate ▸ hnode', hpayload, hsame, Bool.eq_iff_iff.mpr hmarked, husages.usages⟩

/-- A list that goes on, but nobody occurs more often, does not go on. -/
theorem eq_of_prefix_of_count {users users' : List NodeId} (h : users <+: users')
    (hcount : ∀ user, users'.count user = users.count user) : users' = users := by
  obtain ⟨more, rfl⟩ := h
  cases more with
  | nil => exact List.append_nil users
  | cons first more =>
    have hfirst := hcount first
    rw [List.count_append, List.count_cons_self] at hfirst
    omega

namespace DeepCopied

/-- Attaching the copy asks for copies only. -/
theorem exists_of_asksFor (h : DeepCopied g id copyOf g') {place : NodeId}
    (hasks : g'.AsksFor (copyOf id) place) :
    ∃ other, Relation.ReflTransGen g.ReadsFrom id other ∧ copyOf other = place := by
  induction hasks with
  | refl => exact ⟨id, .refl, rfl⟩
  | tail _ hpulls ih =>
    obtain ⟨other, hother, rfl⟩ := ih
    obtain ⟨payload, hmember, -, hnode⟩ := h.copied hother
    obtain ⟨node, hnode', -, htarget⟩ := hpulls
    obtain rfl := Option.some.inj (hnode.symm.trans hnode')
    rw [Payload.edges_duplicate] at htarget
    obtain ⟨target, hin, rfl⟩ := List.mem_map.mp htarget
    exact ⟨target, hother.tail ⟨payload, hmember, hin⟩, rfl⟩

theorem index_le (h : DeepCopied g id copyOf g')
    (hother : Relation.ReflTransGen g.ReadsFrom id other) :
    g.nodes.size ≤ (copyOf other).index := by
  obtain ⟨-, -, hfresh, -⟩ := h.copied hother
  exact hfresh

variable {between after : Graph} {rep : NodeId → NodeId}

/-- Who stands for the copies once they are attached. -/
theorem rep_copyOf (h : DeepCopied g id copyOf between)
    (hrep : Resolves between (copyOf id) after rep)
    (hreceived : Received g g Table.empty id (fun other => rep (copyOf other)) after)
    (hclosure : ∀ {other}, Relation.ReflTransGen g.ReadsFrom id other →
      between.InClosure (copyOf id) (copyOf other))
    (hother : Relation.ReflTransGen g.ReadsFrom id other) :
      rep (copyOf other) = g.joinedAs copyOf other := by
  obtain ⟨payload, hmember, -, hnode⟩ := h.copied hother
  rw [joinedAs, isA_of_member? hmember]
  cases hunique : payload.kind.isA .unique with
  | true =>
    rw [if_pos rfl]
    exact ((hreceived.unique (behind_empty.mpr hother) hmember hunique other).mp
      (hreceived.old hmember)).symm
  | false =>
    rw [if_neg (by simp)]
    exact hrep.plain (hclosure hother) hnode (by simpa [Node.kind, Kind.isUnique] using hunique)

/-- The nodes of before are not asked for. -/
theorem spared (h : DeepCopied g id copyOf between) (hbetween : between.Kept)
    (hnode : g.node? other = some node) :
    ∃ node', (attach (copyOf id) between).state.node? other = some node' ∧
      node'.payload = node.payload ∧
      node'.state = node.state ∧ node'.member = node.member ∧ node.usages <+: node'.usages := by
  have hlt := lt_size_of_node? hnode
  refine attach_spares hbetween (fun hin => ?_) (by rw [h.old hlt, hnode])
  obtain ⟨original, horiginal, rfl⟩ := h.exists_of_asksFor hin.1
  have hle := h.index_le horiginal
  omega

/-- A node that is not a unique one with a copy gets no edge from a copy. -/
theorem not_mem_edges_duplicate (h : DeepCopied g id copyOf between) {original : NodeId}
    (horiginal : Relation.ReflTransGen g.ReadsFrom id original)
    (hmember : g.member? original = some payload) (hlt : other.index < g.nodes.size)
    (hnot : ¬ (Relation.ReflTransGen g.ReadsFrom id other ∧ g.isA other .unique = true)) :
    other ∉ (payload.duplicate (g.joinedAs copyOf)).edges := by
  rw [Payload.edges_duplicate]
  intro hin
  obtain ⟨target, htarget, hreads⟩ := List.mem_map.mp hin
  have hpath := horiginal.tail ⟨payload, hmember, htarget⟩
  rw [joinedAs] at hreads
  split at hreads
  · exact hnot ⟨hreads ▸ hpath, hreads ▸ ‹_›⟩
  · have hle := h.index_le hpath
    rw [hreads] at hle
    omega

/-- **When the copy is attached it rejoins the graph.** -/
theorem rejoined (h : DeepCopied g id copyOf between) (hkept : g.Kept) (hbetween : between.Kept)
    (hmembers : between.member? = g.member?)
    (hrep : Resolves between (copyOf id) (attach (copyOf id) between).state rep)
    (hreceived : Received g g Table.empty id (fun other => rep (copyOf other))
    (attach (copyOf id) between).state)
    (hclosure : ∀ {other}, Relation.ReflTransGen g.ReadsFrom id other →
      between.InClosure (copyOf id) (copyOf other)) :
    Rejoined g id copyOf (attach (copyOf id) between).state := by
  have hjoin : ∀ {other}, Relation.ReflTransGen g.ReadsFrom id other →
      rep (copyOf other) = g.joinedAs copyOf other :=
        fun hother => h.rep_copyOf hrep hreceived hclosure hother
  have hcopied : ∀ {other payload}, Relation.ReflTransGen g.ReadsFrom id other →
    g.member? other = some payload →
      (attach (copyOf id) between).state.member? (g.joinedAs copyOf other)
        = some (payload.duplicate (g.joinedAs copyOf)) := by
    intro other payload hother hmember
    rw [← hjoin hother, hreceived.copied (behind_empty.mpr hother) hmember,
      Payload.duplicate_congr fun target htarget => hjoin (hother.tail ⟨payload, hmember, htarget⟩)]
  have hgivenUp : ∀ {other}, Relation.ReflTransGen g.ReadsFrom id other →
    g.isA other .unique = true →
      ∃ node, (attach (copyOf id) between).state.node? (copyOf other) = some node ∧
        node.state = .deleted := by
    intro other hother hunique
    obtain ⟨payload, hmember, hfresh, hnode⟩ := h.copied hother
    rw [isA_of_member? hmember] at hunique
    refine (hrep.unique (hclosure hother) hnode
      (by simpa [Node.kind, Kind.isUnique] using hunique)).2 fun hself => ?_
    rw [hjoin hother, joinedAs, isA_of_member? hmember, if_pos hunique] at hself
    have hlt := index_lt_size hmember
    rw [hself] at hlt
    omega
  refine ⟨hcopied, hgivenUp, h.spared hbetween, fun {other} hlt hnot => ?_⟩
  -- No new member has an edge to the node, so it has the users it had.
  have hweight : ∀ user, (attach (copyOf id) between).state.weight user other
      = g.weight user other := by
    intro user
    cases hbefore : g.member? user with
    | some payload => rw [weight_of_member? hbefore, weight_of_member? (hreceived.old hbefore)]
    | none =>
      rw [weight_of_not_member hbefore]
      cases hafter : (attach (copyOf id) between).state.member? user with
      | none => exact weight_of_not_member hafter other
      | some payload =>
        rcases hrep.newcomers hafter with hearlier | hin
        · rw [hmembers, hbefore] at hearlier
          exact absurd hearlier (by simp)
        · obtain ⟨original, horiginal, rfl⟩ := h.exists_of_asksFor hin.1
          obtain ⟨found, hfound, -⟩ := h.copied horiginal
          have hplain : g.isA original .unique = false := by
            refine Bool.eq_false_iff.mpr fun hunique => ?_
            obtain ⟨gone, hgone, hdeleted⟩ := hgivenUp horiginal hunique
            rw [member?_eq_none_of_node? hgone (by simp [hdeleted])] at hafter
            exact absurd hafter (by simp)
          have hself : g.joinedAs copyOf original = copyOf original := by
            rw [joinedAs, hplain, if_neg (by simp)]
          rw [weight_of_member? (hself ▸ hcopied horiginal hfound)]
          exact List.count_eq_zero.mpr (h.not_mem_edges_duplicate horiginal hfound hlt hnot)
  obtain ⟨node, hnode⟩ := exists_node?_of_lt hlt
  obtain ⟨node', hnode', hpayload, hstate, hmember, husages⟩ := h.spared hbetween hnode
  have hsame : node'.usages = node.usages := by
    refine eq_of_prefix_of_count husages fun user => ?_
    rw [(attach_kept hbetween _).counted hnode' user, hweight user, hkept.counted hnode user]
  rw [hnode', hnode]
  obtain ⟨payload, state, member, users⟩ := node
  obtain ⟨payload', state', member', users'⟩ := node'
  simp only at hpayload hstate hmember hsame
  rw [hpayload, hstate, hmember, hsame]

end DeepCopied

/-- What has rejoined unfolds to the terms of the originals. -/
theorem Rejoined.unfolds {term : Term} (h : Rejoined g id copyOf g')
    (hother : Relation.ReflTransGen g.ReadsFrom id other) (hterm : g.Unfolds other term) :
    g'.Unfolds (g.joinedAs copyOf other) term :=
  hterm.image (P := Relation.ReflTransGen g.ReadsFrom id) (fun hpath hreads => hpath.tail hreads)
    h.copied hother

/-! ## 5. Deep copies in reachable graphs -/

/-- **A deep copy of an active node of a reachable graph**, and what comes of attaching it.  There
is one exactly if nothing that is read from the node reads itself; otherwise that is the fault.  It
has one detached node, without successors, for each of those nodes, ways along inputs meet in it
exactly if they meet in the original, and nothing else changes.  It can be attached: unique
originals stand for their copies and all other copies for themselves, the answer unfolds to the
term of the original, and of the original nothing changes but the usages of unique nodes. -/
theorem Reachable.deep_copies (h : g.Reachable) (hid : g.isActive id = true) :
    ((∃ answer, (copy id g).result = .ok answer) ↔ g.AcyclicFrom id) ∧
    (¬ g.AcyclicFrom id → ∃ other, (copy id g).result = .error (.cycle other)) ∧
    ∀ answer, (copy id g).result = .ok answer → ∃ copyOf, answer = copyOf id ∧
      DeepCopied g id copyOf (copy id g).state ∧
      (∀ path path', (copy id g).state.follow answer path = (copy id g).state.follow answer path' ↔
        g.follow id path = g.follow id path') ∧
      (attach answer (copy id g).state).result = .ok (g.joinedAs copyOf id) ∧
      Rejoined g id copyOf (attach answer (copy id g).state).state ∧
      ∃ term, g.Unfolds id term ∧
        ∀ term', (attach answer (copy id g).state).state.Unfolds (g.joinedAs copyOf id) term' ↔
          term' = term := by
  have hkept := h.kept
  obtain ⟨payload, hmember⟩ := isActive_iff.mp hid
  rcases hkept.copy_duplicates hmember with ⟨hcyclic, other, hfault⟩
    | ⟨hacyclic, c, hok, hstate, hdone, hroot⟩
  · refine ⟨⟨fun ⟨answer, hok⟩ => ?_, fun hacyclic => absurd hacyclic hcyclic⟩, fun _ =>
      ⟨other, hfault⟩, fun answer hok => ?_⟩
    · exact absurd (hok.symm.trans hfault) (by simp)
    · exact absurd (hok.symm.trans hfault) (by simp)
  · refine ⟨⟨fun _ => hacyclic, fun _ => ⟨_, hok⟩⟩, fun hcyclic => absurd hacyclic hcyclic,
      fun answer hanswer => ?_⟩
    obtain rfl : c.copyOf id = answer := Except.ok.inj (hok.symm.trans hanswer)
    have hbetween : (copy id g).state.Kept := copy_preserves id g hkept
    have hmembers : (copy id g).state.member? = g.member? :=
      copy_pushes (P := fun g' => g'.member? = g.member?)
        (fun _ payload hsame => (member?_push payload).trans hsame) id rfl
    have hframe := pool_name_owner_copy id g
    rw [hstate] at hbetween hmembers hframe ⊢
    have hcopied := hdone.deepCopied hroot hframe
    have hattachable : c.transfer.target.Attachable (c.copyOf id) := by
      obtain ⟨place, hplace⟩ := hroot
      rw [Copying.copyOf_of_get? hplace]
      exact hdone.attachable hkept (Copying.serves_empty g g) hplace
    obtain ⟨returned, hattached⟩ := (attach_eq_ok_iff hbetween).mpr hattachable
    obtain ⟨rep, hrep, rfl⟩ := attach_resolves hbetween hattached
    have hreceived := hdone.received (Copying.serves_empty g g) hroot hrep (attach_grown hbetween _)
    have hclosure : ∀ {other}, Relation.ReflTransGen g.ReadsFrom id other →
        c.transfer.target.InClosure (c.copyOf id) (c.copyOf other) :=
      fun hpath => hdone.inClosure hroot (behind_empty.mpr hpath)
    have hrejoined := hcopied.rejoined hkept hbetween hmembers hrep hreceived hclosure
    rw [hcopied.rep_copyOf hrep hreceived hclosure .refl] at hattached
    obtain ⟨term, hterm⟩ := hdone.exists_unfolds hroot (Relation.ReflTransGen.refl (a := id))
    have hsame := hrejoined.unfolds .refl hterm
    refine ⟨c.copyOf, rfl, hcopied, hcopied.follow_eq_iff hkept hmember, hattached,
      hrejoined, term, hterm, fun term' => ⟨fun hterm' => hterm'.unique hsame,
        fun heq => heq ▸ hsame⟩⟩

/-- The write is copied with the product, the sum, the constant and the parameter.  Attached, its
sum reads the constant and the parameter that were there.  The sum that reads itself cannot be
copied. -/
theorem deep_copies_squaring :
    (∃ copyOf, copyOf ⟨4⟩ = ⟨10⟩ ∧ DeepCopied squaring ⟨4⟩ copyOf (copy ⟨4⟩ squaring).state ∧
      Rejoined squaring ⟨4⟩ copyOf (attach ⟨10⟩ (copy ⟨4⟩ squaring).state).state) ∧
    (attach ⟨10⟩ (copy ⟨4⟩ squaring).state).state.member? ⟨8⟩
      = some (.builtInCall [⟨0⟩, ⟨1⟩] .add (.uint 8)) ∧
    (attach ⟨10⟩ (copy ⟨4⟩ squaring).state).state.usages ⟨0⟩ = [⟨2⟩, ⟨5⟩, ⟨8⟩] ∧
    ¬ squaring.AcyclicFrom ⟨5⟩ := by
  have hreachable : squaring.Reachable := reachable_foldl "f" _
  have hactive : squaring.isActive ⟨4⟩ = true := by rw [squaring_eq]; rfl
  have hactive' : squaring.isActive ⟨5⟩ = true := by rw [squaring_eq]; rfl
  have hok : (copy ⟨4⟩ squaring).result = .ok ⟨10⟩ := by rw [squaring_eq]; cbv
  have hfault : (copy ⟨5⟩ squaring).result = .error (.cycle ⟨5⟩) := by rw [squaring_eq]; cbv
  obtain ⟨-, -, hcopied⟩ := hreachable.deep_copies hactive
  obtain ⟨hiff, -, -⟩ := hreachable.deep_copies hactive'
  refine ⟨?_, by rw [squaring_eq]; cbv, by rw [squaring_eq]; cbv, fun hacyclic => ?_⟩
  · obtain ⟨copyOf, hanswer, hdeep, -, -, hrejoined, -⟩ := hcopied _ hok
    exact ⟨copyOf, hanswer.symm, hdeep, hrejoined⟩
  · obtain ⟨answer, hanswer⟩ := hiff.mpr hacyclic
    exact absurd (hanswer.symm.trans hfault) (by simp)

end Graph

end BehaviorGraph
