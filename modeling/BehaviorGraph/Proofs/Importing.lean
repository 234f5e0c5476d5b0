/-
# Importing from another graph

The copies of what a node reads can be attached (`Copying.Duplicated.attachable`) where the entries
that were given beforehand are members that fit.  Who stands for a copy afterwards depends on its
kind alone: the copy itself, at a new place, or the only member that has its payload if the node is
unique.  `Graph.Received` says so of all of them at once.

Together (`Reachable.importing_copies`): **a node is imported with all it reads, up to what has an
entry already, and the table then has where everything went; unless a node to be copied reads
itself**.
-/
import BehaviorGraph.Proofs.Duplicating

namespace BehaviorGraph

theorem Table.get?_mapValues {κ ν : Type} [DecidableEq κ] (table : Table κ ν)
    (f : ν → ν) (key : κ) :
    (table.mapValues f).get? key = (table.get? key).map f := by
  simp [Table.get?, Table.mapValues, List.find?_map, Function.comp_def, Option.map_map]

namespace Graph

variable {source g g' : Graph} {table : Table NodeId NodeId} {id root target place : NodeId}
  {payload : Payload} {node : Node}

namespace Copying

variable {c : Copying}

/-! ## 1. Attaching the copies -/

/-- **Every entry is a member that fits the slots it is to fill.** -/
def Serves (source g : Graph) (table : Table NodeId NodeId) : Prop :=
  ∀ {id place}, table.get? id = some place → ∃ found, g.member? place = some found ∧
    ∀ {user payload slot}, source.member? user = some payload → slot ∈ payload.inputSlots →
      slot.target = some id → found.kind.isA slot.family = true

theorem serves_empty (source g : Graph) : Serves source g Table.empty :=
  fun hentry => absurd hentry (by simp [Table.get?_empty])

namespace Duplicated

/-- The members of before are there. -/
theorem member? (h : Duplicated source g table root c) (hmember : g.member? id = some payload) :
    c.transfer.target.member? id = some payload := by
  obtain ⟨node, hnode, hstate, rfl⟩ := member?_eq_some_iff.mp hmember
  exact member?_eq_some_iff.mpr ⟨node, by rw [h.old (lt_size_of_node? hnode), hnode], hstate, rfl⟩

/-- An entry can be read wherever its node is read. -/
theorem fits (h : Duplicated source g table root c) (hsource : source.Kept)
    (hserves : Serves source g table)
    {user : NodeId} {slot : Slot} (huser : source.member? user = some payload)
    (hslot : slot ∈ payload.inputSlots)
    (htarget : slot.target = some target) (hplace : c.transfer.copies.get? target = some place) :
    ∃ node, c.transfer.target.node? place = some node ∧ node.state ≠ .deleted ∧
      node.kind.isA slot.family = true := by
  cases hentry : table.get? target with
  | some given =>
    obtain rfl := Option.some.inj ((h.given hentry).symm.trans hplace)
    obtain ⟨found, hfound, hfits⟩ := hserves hentry
    obtain ⟨node, hnode, hstate, rfl⟩ := member?_eq_some_iff.mp (h.member? hfound)
    exact ⟨node, hnode, by simp [hstate], hfits huser hslot htarget⟩
  | none =>
    obtain ⟨found, hfound, hnode, -⟩ := (h.copied hplace hentry).copy
    refine ⟨_, hnode, by simp, ?_⟩
    obtain ⟨offered, hoffered, hfamily⟩ := (fills_some htarget).mp
      (hsource.filled huser slot (List.mem_append_left _ hslot))
    obtain rfl := Option.some.inj (hfound.symm.trans hoffered)
    simpa [Node.kind] using hfamily

theorem attachable_of_given (h : Duplicated source g table root c) (hserves : Serves source g table)
    (hentry : table.get? id = some place) : c.transfer.target.Attachable place := by
  obtain ⟨found, hfound, -⟩ := hserves hentry
  exact .member (h.member? hfound)

/-- **Every entry can be attached**: what a copy reads stands in front of it. -/
theorem attachable (h : Duplicated source g table root c) (hsource : source.Kept)
    (hserves : Serves source g table)
    (hplace : c.transfer.copies.get? id = some place) : c.transfer.target.Attachable place := by
  induction hindex : place.index using Nat.strong_induction_on generalizing id place with
  | h index ih =>
    cases hentry : table.get? id with
    | some given =>
      obtain rfl := Option.some.inj ((h.given hentry).symm.trans hplace)
      exact h.attachable_of_given hserves hentry
    | none =>
      obtain ⟨payload, hmember, hnode, hreads⟩ := (h.copied hplace hentry).copy
      refine .detached hnode rfl (fun slot hslot => ?_) fun target htarget => ?_
      · rcases List.mem_append.mp hslot with hinput | hsuccessor
        · rw [Payload.inputSlots_duplicate] at hinput
          obtain ⟨before, hbefore, rfl⟩ := List.mem_map.mp hinput
          cases htarget : before.target with
          | none =>
            have hlegal := Payload.legal_of_mem_inputSlots payload before hbefore
            simp only [Slot.through_target, htarget, Option.map_none]
            refine Attachment.checkSlot_none_iff.mpr ?_
            simpa [Slot.Legal, Slot.Takes, htarget] using hlegal
          | some target =>
            obtain ⟨place', hplace', -⟩ :=
              hreads target (Payload.mem_inputEdges_iff.mpr ⟨before, hbefore, htarget⟩)
            simp only [Slot.through_target, htarget, Option.map_some, copyOf_of_get? hplace']
            rw [Attachment.checkSlot_some_iff, Slot.through_family]
            exact h.fits hsource hserves hmember hbefore htarget hplace'
        · obtain ⟨hnone, hoptional⟩ := Payload.successorSlot_duplicate hsuccessor
          rw [hnone]
          exact Attachment.checkSlot_none_iff.mpr hoptional
      · rw [Payload.edges_duplicate] at htarget
        obtain ⟨before, hbefore, rfl⟩ := List.mem_map.mp htarget
        obtain ⟨place', hplace', hlt⟩ := hreads before hbefore
        rw [copyOf_of_get? hplace']
        cases hgiven : table.get? before with
        | some given =>
          obtain rfl := Option.some.inj ((h.given hgiven).symm.trans hplace')
          exact h.attachable_of_given hserves hgiven
        | none => exact ih place'.index (hindex ▸ hlt hgiven) hplace' rfl

/-- The copies are what is asked for when the first of them is attached. -/
theorem inClosure (h : Duplicated source g table root c)
    (hroot : ∃ place, c.transfer.copies.get? root = some place)
    (hbehind : source.Behind table root id) :
      c.transfer.target.InClosure (c.copyOf root) (c.copyOf id) := by
  obtain ⟨hfree, hpath⟩ := hbehind
  have hdetached : ∀ {user}, Relation.ReflTransGen (source.Follows table) root user →
    table.get? user = none →
      ∃ payload, source.member? user = some payload ∧
        c.transfer.target.node? (c.copyOf user)
          = some { payload := payload.duplicate c.copyOf } := by
    intro user hto hnone
    obtain ⟨place, hplace⟩ := h.exists_entry hroot hto
    obtain ⟨payload, hmember, hnode, -⟩ := (h.copied hplace hnone).copy
    exact ⟨payload, hmember, by rw [copyOf_of_get? hplace, hnode]⟩
  obtain ⟨payload, -, hnode⟩ := hdetached hpath hfree
  refine ⟨?_, _, hnode, rfl⟩
  clear hfree hnode
  induction hpath with
  | refl => exact .refl
  | @tail user target hto hfollows ih =>
    obtain ⟨⟨found, hfound, htarget⟩, hnone⟩ := hfollows
    obtain ⟨payload, hmember, hnode⟩ := hdetached hto hnone
    obtain rfl := Option.some.inj (hfound.symm.trans hmember)
    refine (ih).tail ⟨_, hnode, rfl, ?_⟩
    rw [Payload.edges_duplicate]
    exact List.mem_map_of_mem htarget

end Duplicated

end Copying

/-! ## 2. What is received -/

/-- A member stands for itself. -/
theorem Resolves.rep_of_member? {rep : NodeId → NodeId} (h : Resolves g root g' rep)
    (hmember : g.member? id = some payload) : rep id = id := by
  refine h.outside fun hin => ?_
  obtain ⟨node, hnode, hstate, -⟩ := member?_eq_some_iff.mp hmember
  rw [hin.state hnode] at hstate
  exact absurd hstate (by simp)

/-- **A graph has received what was to be copied with a node**: `image` says where each of the
nodes went. -/
structure Received (source g : Graph) (table : Table NodeId NodeId) (root : NodeId)
    (image : NodeId → NodeId) (g' : Graph) : Prop where
  /-- The members of before are what they were. -/
  old : ∀ {id payload}, g.member? id = some payload → g'.member? id = some payload
  /-- An entry given beforehand stays. -/
  given : ∀ {id place}, table.get? id = some place → image id = place
  /-- The other nodes went to members of their kind and data, without successors, that read where
  the nodes went that they read. -/
  copied : ∀ {id payload}, source.Behind table root id → source.member? id = some payload →
    g'.member? (image id) = some (payload.duplicate image)
  /-- What is not unique went to a new place. -/
  fresh : ∀ {id payload}, source.Behind table root id → source.member? id = some payload →
    payload.kind.isUnique = false → g.nodes.size ≤ (image id).index
  /-- No two nodes that are not unique went to the same place. -/
  distinct : ∀ {id id' payload payload'}, source.Behind table root id →
    source.member? id = some payload →
    payload.kind.isUnique = false → source.Behind table root id' →
      source.member? id' = some payload' →
    payload'.kind.isUnique = false → image id = image id' → id = id'
  /-- A unique node went to the only member that has its payload. -/
  unique : ∀ {id payload}, source.Behind table root id → source.member? id = some payload →
    payload.kind.isUnique = true → ∀ other, g'.member? other = some payload ↔ other = image id

/-- **When the copies are attached they are received.** -/
theorem Copying.Duplicated.received {c : Copying} {rep : NodeId → NodeId}
    (h : Copying.Duplicated source g table root c) (hserves : Copying.Serves source g table)
    (hroot : ∃ place, c.transfer.copies.get? root = some place)
    (hrep : Resolves c.transfer.target (c.copyOf root) g' rep)
    (hgrown : c.transfer.target.Grown g') :
    Received source g table root (fun id => rep (c.copyOf id)) g' := by
  have hold : ∀ {id payload}, g.member? id = some payload → g'.member? id = some payload :=
    fun hmember => hgrown.member? (h.member? hmember)
  -- The copy of a node that is to be copied, and who stands for it.
  have hcopy : ∀ {id payload}, source.Behind table root id → source.member? id = some payload →
      c.transfer.copies.get? id = some (c.copyOf id) ∧
        c.transfer.target.InClosure (c.copyOf root) (c.copyOf id) ∧
        c.transfer.target.node? (c.copyOf id) = some { payload := payload.duplicate c.copyOf } := by
    intro id payload hbehind hmember
    obtain ⟨place, hplace⟩ := h.exists_entry hroot hbehind.2
    obtain ⟨found, hfound, hnode, -⟩ := (h.copied hplace hbehind.1).copy
    obtain rfl := Option.some.inj (hmember.symm.trans hfound)
    obtain rfl : c.copyOf id = place := Copying.copyOf_of_get? hplace
    exact ⟨hplace, h.inClosure hroot hbehind, hnode⟩
  have hplain : ∀ {id payload}, source.Behind table root id → source.member? id = some payload →
      payload.kind.isUnique = false → rep (c.copyOf id) = c.copyOf id := by
    intro id payload hbehind hmember hplain
    obtain ⟨-, hin, hnode⟩ := hcopy hbehind hmember
    exact hrep.plain hin hnode (by simpa [Node.kind] using hplain)
  have hunique : ∀ {id payload}, source.Behind table root id → source.member? id = some payload →
      payload.kind.isUnique = true → ∀ other, g'.member? other = some payload ↔
        other = rep (c.copyOf id) := by
    intro id payload hbehind hmember hunique
    obtain ⟨-, hin, hnode⟩ := hcopy hbehind hmember
    rw [Payload.duplicate_of_isUnique hunique] at hnode
    exact (hrep.unique hin hnode hunique).1
  refine ⟨hold, fun {id place} hentry => ?_, fun {id payload} hbehind hmember => ?_,
    fun {id payload} hbehind hmember hnot => ?_, ?_, hunique⟩
  · obtain ⟨found, hfound, -⟩ := hserves hentry
    rw [Copying.copyOf_of_get? (h.given hentry)]
    exact hrep.rep_of_member? (h.member? hfound)
  · cases hkind : payload.kind.isUnique with
    | true =>
      rw [Payload.duplicate_of_isUnique hkind]
      exact (hunique hbehind hmember hkind _).mpr rfl
    | false =>
      obtain ⟨-, hin, hnode⟩ := hcopy hbehind hmember
      have hself := hplain hbehind hmember hkind
      rw [hself, hrep.redirected hin hnode hself, Payload.mapEdges_duplicate]
  · obtain ⟨hplace, -⟩ := hcopy hbehind hmember
    rw [hplain hbehind hmember hnot]
    exact (h.copied hplace hbehind.1).fresh
  · intro id id' payload payload' hbehind hmember hnot hbehind' hmember' hnot' hsame
    obtain ⟨hplace, -⟩ := hcopy hbehind hmember
    obtain ⟨hplace', -⟩ := hcopy hbehind' hmember'
    simp only [hplain hbehind hmember hnot, hplain hbehind' hmember' hnot'] at hsame
    exact h.distinct hplace hbehind.1 (hsame ▸ hplace') hbehind'.1

/-! ## 3. Importing a node -/

/-- What can be attached is resolved. -/
theorem Attachable.exists_resolved (h : g.Attachable id) (hkept : g.Kept) :
    ∃ resolved, (attachResolving id g).result = .ok resolved := by
  obtain ⟨rep, hok⟩ := (attach_eq_ok_iff hkept).mpr h
  rw [attach_eq] at hok
  cases hresult : (attachResolving id g).result with
  | ok resolved => exact ⟨resolved, rfl⟩
  | error fault =>
    rw [hresult] at hok
    exact absurd hok (by simp [Except.map])

/-- **An import goes wrong because a node to be copied reads itself, or the graph receives
everything.** -/
theorem copyInto_receives {t : Transfer} (hsource : source.Kept)
    (hroot : source.member? root = some payload)
    (htarget : t.target.Kept) (hserves : Copying.Serves source t.target t.copies) :
    (∃ id, (copyInto source root t).result = .error (.cycle id) ∧
      source.Entangled t.copies root id) ∨
    (¬ ∃ id, source.Entangled t.copies root id) ∧ ∃ image,
      (copyInto source root t).result = .ok (image root) ∧
      (∀ {id}, Relation.ReflTransGen (source.Follows t.copies) root id ∨
        t.copies.contains id = true →
        (copyInto source root t).state.copies.get? id = some (image id)) ∧
      Received source t.target t.copies root image (copyInto source root t).state.target := by
  have hview : Copying.Shows (fun _ => source) source t.target := fun _ _ _ hmember => hmember
  have hwalk := Copying.walk_duplicates hview hsource hroot
    (Copying.Duplicating.start source t.target t.copies root (Nat.le_refl _))
  have hkept := Copying.walk_pushes (P := Kept) (fun _ payload hkept => hkept.push payload)
    (fun _ => source)
    source.nodes.size [.enter root] ⟨t, []⟩ htarget
  unfold copyInto
  cases hend : Copying.walk (fun _ => source) source.nodes.size [.enter root] ⟨t, []⟩ with
  | mk result c reports =>
    rw [hend] at hwalk hkept
    rcases hwalk with ⟨rfl, hdone, place, hplace⟩ | ⟨id, rfl, hentangled⟩
    · right
      refine ⟨fun ⟨id, hentangled⟩ => hdone.not_entangled ⟨place, hplace⟩ hentangled, ?_⟩
      obtain ⟨resolved, hresolved⟩ :=
        (hdone.attachable hsource hserves hplace).exists_resolved hkept
      have hrep := attachResolving_resolves hkept hresolved
      have hgrown := attachResolving_grown hkept place
      have hcopyOf : c.copyOf root = place := Copying.copyOf_of_get? hplace
      rw [← hcopyOf] at hrep hgrown hresolved
      refine ⟨fun id => (resolved.get? (c.copyOf id)).getD (c.copyOf id), ?_⟩
      simp only
      rw [← Copying.copyOf]
      have hreceived := hdone.received hserves ⟨place, hplace⟩ hrep hgrown
      cases hattach : attachResolving (c.copyOf root) c.transfer.target with
      | mk result target later =>
        rw [hattach] at hresolved hreceived
        obtain rfl : result = .ok resolved := hresolved
        refine ⟨rfl, fun {id} hid => ?_, hreceived⟩
        obtain ⟨entry, hentry⟩ : ∃ entry, c.transfer.copies.get? id = some entry := by
          rcases hid with hpath | hgiven
          · exact hdone.exists_entry ⟨place, hplace⟩ hpath
          · obtain ⟨entry, hentry⟩ := Option.isSome_iff_exists.mp hgiven
            exact ⟨entry, hdone.given hentry⟩
        simp only [Table.get?_mapValues, hentry, Option.map_some, Copying.copyOf_of_get? hentry]
    · exact .inl ⟨id, rfl, hentangled⟩

/-- A node that was copied, at the end of an import: the table has where it went, and there is a
member that reads where the nodes went that the node reads. -/
structure Imported (source : Graph) (t : Transfer) (image : NodeId → NodeId) (id : NodeId)
    (payload found : Payload) : Prop where
  entry : t.copies.get? id = some (image id)
  origin : source.member? id = some payload
  member : t.target.member? (image id) = some found
  kind : found.kind = payload.kind
  inputs : found.inputs = payload.inputs.map (Option.map image)
  /-- What it reads has an entry too. -/
  entries : ∀ target ∈ payload.inputEdges, t.copies.get? target = some (image target)
  unset : ∀ next ∈ found.successors, next = none

/-- **Importing a node of one reachable graph into another**, where the table has members that fit
for the nodes it has an entry for.  If a node that is to be copied reads itself, at whatever
distance, the import fails with such a cycle.  Otherwise the answer is what the table then has for
the node, and it has where every node went that was to be copied: to an active node of the same
kind and data whose inputs lead where the inputs of the node went and whose successors are empty,
at a place of its own that was not there before, or the only one of its payload if the node is
unique.  Entries given beforehand stay, and so does what was active. -/
theorem Reachable.importing_copies {t : Transfer} (hsource : source.Reachable)
    (hroot : source.isActive root = true)
    (htarget : t.target.Reachable) (hserves : Copying.Serves source t.target t.copies) :
    ((∃ id, source.Entangled t.copies root id) →
      ∃ id, source.Entangled t.copies root id ∧
        (copyInto source root t).result = .error (.cycle id)) ∧
    ((¬ ∃ id, source.Entangled t.copies root id) → ∃ image,
      (copyInto source root t).result = .ok (image root) ∧
      (copyInto source root t).state.copies.get? root = some (image root) ∧
      (∀ id place, t.copies.get? id = some place →
        (copyInto source root t).state.copies.get? id = some place) ∧
      (∀ id, source.Behind t.copies root id → ∃ payload found,
        Imported source (copyInto source root t).state image id payload found) ∧
      Received source t.target t.copies root image (copyInto source root t).state.target) := by
  obtain ⟨payload, hroot⟩ := isActive_iff.mp hroot
  rcases copyInto_receives hsource.kept hroot htarget.kept hserves with
    ⟨id, hresult, hentangled⟩ | ⟨hnone, image, hresult, hentries, hreceived⟩
  · exact ⟨fun _ => ⟨id, hentangled, hresult⟩, fun hnone => absurd ⟨id, hentangled⟩ hnone⟩
  · refine ⟨fun hsome => absurd hsome hnone, fun _ =>
      ⟨image, hresult, hentries (.inl .refl), ?_, ?_, hreceived⟩⟩
    · intro id place hentry
      rw [hentries (.inr (by simp [Table.contains, hentry])), hreceived.given hentry]
    · intro id hbehind
      obtain ⟨found, hfound⟩ := hsource.kept.member?_of_follows hroot hbehind.2
      refine ⟨found, _, hentries (.inl hbehind.2), hfound, hreceived.copied hbehind hfound,
        Payload.kind_duplicate _ _, Payload.inputs_duplicate _ _, fun target htarget => ?_,
        fun next hnext => ?_⟩
      · exact hentries (.inl (hbehind.2.tail ⟨⟨found, hfound, htarget⟩, hbehind.1⟩))
      · rw [Payload.successors_duplicate] at hnext
        obtain ⟨-, -, rfl⟩ := List.mem_map.mp hnext
        rfl

/-- A register is written with the square of a sum of a constant and a parameter, and another sum
reads itself. -/
def squaring : Graph :=
  ([.add (.const (.ofInt 1 (.uint 8))), .add (.param "p" (.uint 8)),
    .add (.builtInCall [⟨0⟩, ⟨1⟩] .add (.uint 8)), .add (.builtInCall [⟨2⟩, ⟨2⟩] .mul (.uint 8)),
    .add (.writeReg ⟨3⟩ none "A"), .add (.builtInCall [⟨0⟩, ⟨0⟩] .add (.uint 8)),
    .redirectInputs ⟨5⟩ (fun place old => if place = 1 then some ⟨5⟩ else old)]
      : List Move).foldl (fun g move => move.after g) (empty "f")

theorem squaring_eq : squaring =
    { name := "f"
      nodes := #[⟨.const (.ofInt 1 (.uint 8)), .active, true, [⟨2⟩, ⟨5⟩]⟩,
        ⟨.param "p" (.uint 8), .active, true, [⟨2⟩]⟩,
        ⟨.builtInCall [⟨0⟩, ⟨1⟩] .add (.uint 8), .active, true, [⟨3⟩, ⟨3⟩]⟩,
        ⟨.builtInCall [⟨2⟩, ⟨2⟩] .mul (.uint 8), .active, true, [⟨4⟩]⟩,
        ⟨.writeReg ⟨3⟩ none "A", .active, true, []⟩,
        ⟨.builtInCall [⟨0⟩, ⟨5⟩] .add (.uint 8), .active, true, [⟨5⟩]⟩]
      pool := ⟨[(.const (.ofInt 1 (.uint 8)), ⟨0⟩), (.param "p" (.uint 8), ⟨1⟩)]⟩ } := by
  cbv

/-- A graph that has the constant and a register to read for the parameter. -/
def receiving : Graph :=
  ([.add (.readReg "B" (.uint 8)), .create (.field "i" (.uint 8)),
    .add (.const (.ofInt 1 (.uint 8)))]
      : List Move).foldl (fun g move => move.after g) (empty "h")

/-- The write is imported: the sum once, behind it the product, with the register for the parameter
and the constant that is there.  The sum that reads itself is not. -/
theorem importing_copies_squaring :
    (∃ image, Received squaring receiving ⟨[(⟨1⟩, ⟨0⟩)]⟩ ⟨4⟩ image
        (copyInto squaring ⟨4⟩ ⟨receiving, ⟨[(⟨1⟩, ⟨0⟩)]⟩⟩).state.target ∧ image ⟨4⟩ = ⟨6⟩) ∧
    (copyInto squaring ⟨4⟩ ⟨receiving, ⟨[(⟨1⟩, ⟨0⟩)]⟩⟩).state.target.member? ⟨4⟩
      = some (.builtInCall [⟨2⟩, ⟨0⟩] .add (.uint 8)) ∧
    ∃ id, (copyInto squaring ⟨5⟩ ⟨receiving, ⟨[(⟨1⟩, ⟨0⟩)]⟩⟩).result = .error (.cycle id) := by
  have hreceiving : receiving =
      { name := "h"
        nodes :=
          #[⟨.readReg "B" (.uint 8), .active, true, []⟩,
            ⟨.field "i" (.uint 8), .detached, false, []⟩,
          ⟨.const (.ofInt 1 (.uint 8)), .active, true, []⟩]
        pool := ⟨[(.const (.ofInt 1 (.uint 8)), ⟨2⟩)]⟩ } := by cbv
  have hsource : squaring.Reachable := reachable_foldl "f" _
  have htarget : receiving.Reachable := reachable_foldl "h" _
  have hserves : Copying.Serves squaring receiving ⟨[(⟨1⟩, ⟨0⟩)]⟩ := by
    intro id place hentry
    obtain ⟨rfl, rfl⟩ : id = ⟨1⟩ ∧ place = ⟨0⟩ := by
      simp only [Table.get?, List.find?_cons, List.find?_nil] at hentry
      split at hentry
      · rename_i hkey
        exact ⟨(of_decide_eq_true hkey).symm, (Option.some.inj hentry).symm⟩
      · exact absurd hentry (by simp)
    refine ⟨.readReg "B" (.uint 8), by rw [hreceiving]; rfl,
      fun {user payload slot} huser hslot htarget => ?_⟩
    have hparam : squaring.member? ⟨1⟩ = some (.param "p" (.uint 8)) := by rw [squaring_eq]; rfl
    -- What takes a parameter takes any value.
    obtain ⟨found, hfound, hfamily⟩ := (fills_some htarget).mp
      (hsource.kept.filled huser slot (List.mem_append_left _ hslot))
    obtain rfl := Option.some.inj (hparam.symm.trans hfound)
    rw [Kind.family_eq_value rfl hfamily (Payload.family_of_mem_slots
      (List.mem_append_left _ hslot))]
    rfl
  have hactive : ∀ index < 6, squaring.isActive ⟨index⟩ = true := by
    rw [squaring_eq]
    decide
  have hok : (copyInto squaring ⟨4⟩ ⟨receiving, ⟨[(⟨1⟩, ⟨0⟩)]⟩⟩).result = .ok ⟨6⟩ := by
    rw [squaring_eq, hreceiving]
    cbv
  obtain ⟨hcyclic, hacyclic⟩ := hsource.importing_copies
    (t := ⟨receiving, ⟨[(⟨1⟩, ⟨0⟩)]⟩⟩) (hactive 4 (by decide)) htarget hserves
  obtain ⟨hcyclic', -⟩ := hsource.importing_copies
    (t := ⟨receiving, ⟨[(⟨1⟩, ⟨0⟩)]⟩⟩) (hactive 5 (by decide)) htarget hserves
  refine ⟨?_, ?_, ?_⟩
  · obtain ⟨image, hresult, -, -, -, hreceived⟩ := hacyclic fun hentangled => by
      obtain ⟨id, -, hfault⟩ := hcyclic hentangled
      exact absurd (hok.symm.trans hfault) (by simp)
    exact ⟨image, hreceived, (Except.ok.inj (hok.symm.trans hresult)).symm⟩
  · rw [squaring_eq, hreceiving]
    cbv
  · have hself : squaring.Follows ⟨[(⟨1⟩, ⟨0⟩)]⟩ ⟨5⟩ ⟨5⟩ :=
      ⟨⟨.builtInCall [⟨0⟩, ⟨5⟩] .add (.uint 8), by rw [squaring_eq]; rfl, by decide⟩, by decide⟩
    obtain ⟨id, -, hfault⟩ := hcyclic' ⟨⟨5⟩, ⟨by decide, .refl⟩, .single hself⟩
    exact ⟨id, hfault⟩

end Graph

end BehaviorGraph
