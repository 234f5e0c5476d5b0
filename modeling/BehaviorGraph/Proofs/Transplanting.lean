/-
# Transplanting a value

Copying a value into another graph transcribes it and grafts what was transcribed.  `Transplanted`
says what comes of the two: a table of who stands for whom (`moved`), in which **the member that
stands for a node of the source has its payload, read through the table**, while the members of the
other graph stay what they were.

A node of the source therefore comes to the same as the member that stands for it, if the nodes
with an entry beforehand do (`Transplanted.value_eq`); and the graph has ranks in which everything
transplanted stands below a member that ranked above all the entries (`Transplanted.ranked`).
-/
import BehaviorGraph.Proofs.Grafting
import BehaviorGraph.Proofs.Interpretation

namespace BehaviorGraph

namespace Graph

variable {α : Type} {source g g' : Graph} {table : Table NodeId NodeId} {id root call : NodeId}
  {moved : NodeId → NodeId} {copied : NodeId → Prop} {payload : Payload} {rank rank' : NodeId → Nat}

/-- **Values of `source` were transplanted from `g` to `g'`**: `copied` tells which, and `moved`
who stands for them. -/
structure Transplanted (source g : Graph) (table : Table NodeId NodeId) (moved : NodeId → NodeId)
    (copied : NodeId → Prop) (g' : Graph) : Prop where
  kept : g'.Kept
  framed : g.Framed g'
  size : g.nodes.size ≤ g'.nodes.size
  old : ∀ {id node}, g.node? id = some node → ∃ node', g'.node? id = some node' ∧
    node'.state = node.state ∧ node'.payload = node.payload
  given : ∀ {id arg}, table.get? id = some arg → moved id = arg
  reads : ∀ {id}, copied id → table.get? id = none → ∃ payload, source.member? id = some payload ∧
    payload.kind.isA .value = true ∧ g'.member? (moved id) = some (payload.mapEdges moved) ∧
    ∀ target ∈ payload.inputEdges, copied target
  /-- Every new member stands for a node that was copied. -/
  fresh : ∀ {id payload}, g'.member? id = some payload → g.member? id = none →
    g.nodes.size ≤ id.index ∧ ∃ origin, copied origin ∧ table.get? origin = none ∧ moved origin = id
  /-- Everything transplanted can be ranked below a member above all the entries. -/
  ranked : ∀ {rank call payload}, g.Kept → g.Ranked rank → g.member? call = some payload →
    payload.kind.isUnique = false → (∀ {target}, Given table target → rank target < rank call) →
      ∃ rank', g'.Ranked rank' ∧ ∀ {id}, copied id → moved id ≠ call ∧ rank' (moved id) ≤ rank' call

/-! ## 1. Copying into a graph -/

/-- Attaching loose values ends as their walk does. -/
theorem attachResolving_grafts {between : Graph} (hloose : Loose g table between)
    (hid : Attachment.Eligible g table between id) :
    ∃ a, (attachResolving id between).result = .ok a.resolved ∧
      (attachResolving id between).state = a.graph ∧ Attachment.Grafting g table between a ∧
      a.Stands table id := by
  have hcard : (Attachment.remaining between ⟨between, [], Table.empty⟩).card
      ≤ between.nodes.size := by
    refine Nat.le_trans (Finset.card_filter_le _ _) (Nat.le_trans (List.toFinset_card_le _) ?_)
    simp [ids]
  obtain ⟨bound, a, hwalk, hgrafts, hstands⟩ := Attachment.walk_grafts [] hloose hid
    (Attachment.grafting_start hloose) (by simp) hcard
  have hend : Attachment.walk bound [] a = ⟨.ok (), a, []⟩ := by rw [Attachment.walk]
  obtain ⟨hresult, hstate⟩ := hwalk
  rw [hend] at hresult hstate
  refine ⟨a, ?_, ?_, hgrafts.done, hstands⟩
  all_goals
    unfold attachResolving
    cases houtcome : Attachment.walk between.nodes.size [.enter id] ⟨between, [], Table.empty⟩ with
    | mk result state reports =>
      rw [houtcome] at hresult hstate
      simp only at hresult hstate
      subst hresult hstate
      rfl

/-- What was transcribed and then grafted was transplanted. -/
theorem transplanted_of_grafting {c : Copying} {a : Attachment}
    (hc : Copying.Transcribed source g table c)
    (ha : Attachment.Grafting g table c.transfer.target a) :
    Transplanted source g table (fun id => a.representative (c.copyOf id))
      (fun id => ∃ place, c.transfer.copies.get? id = some place ∧
        a.Stands table place) a.graph := by
  have hgiven : ∀ {id arg}, table.get? id = some arg → a.representative (c.copyOf id) = arg := by
    intro id arg harg
    obtain ⟨payload, hmember, -⟩ := hc.loose.given ⟨id, harg⟩
    rw [Copying.copyOf_of_get? (hc.given harg),
      Attachment.representative_of_none (ha.resolved_of_member hmember)]
  refine ⟨ha.kept, ha.framed, by rw [ha.size]; exact hc.loose.size, ha.old, hgiven, ?_, ?_, ?_⟩
  · rintro id ⟨place, hplace, hstands⟩ hnone
    obtain ⟨hlow, payload, hmember, hvalue, hpayload, hreads⟩ := hc.copied hplace hnone
    obtain ⟨rep, hrep⟩ := hstands.resolve_left fun hin => by
      obtain ⟨payload, hmember, -⟩ := hc.loose.given hin
      exact absurd (index_lt_size hmember) (Nat.not_lt.mpr hlow)
    obtain ⟨-, copy, hcopy, hmember', hstands', -⟩ := ha.resolved hrep
    rw [hpayload] at hcopy
    obtain rfl := Option.some.inj hcopy
    refine ⟨payload, hmember, hvalue, ?_, fun target htarget => ?_⟩
    · rw [Copying.copyOf_of_get? hplace, Attachment.representative_of_resolved hrep, hmember',
        Payload.mapEdges_mapEdges]
    · obtain ⟨place', hplace'⟩ := hreads target htarget
      refine ⟨place', hplace', ?_⟩
      have hin : c.copyOf target ∈ (payload.mapEdges c.copyOf).inputEdges := by
        rw [Payload.inputEdges_mapEdges]
        exact List.mem_map_of_mem htarget
      rw [← Copying.copyOf_of_get? hplace']
      exact hstands' _ hin
  · intro id payload hmember hnone
    rcases ha.members hmember with hold | hrep
    · rw [hnone] at hold
      exact absurd hold (by simp)
    · have hlow := (ha.resolved hrep).1
      obtain ⟨origin, horigin, hfree⟩ := hc.covered hlow (ha.size ▸ index_lt_size hmember)
      refine ⟨hlow, origin, ⟨id, horigin, Or.inr ⟨id, hrep⟩⟩, hfree, ?_⟩
      rw [Copying.copyOf_of_get? horigin, Attachment.representative_of_resolved hrep]
  · intro rank call payload hkept hranked hcall hunique hbelow
    refine ⟨_, ha.ranked hc.loose hkept hranked (hranked.bounded hcall) hbelow, ?_⟩
    rintro id ⟨place, hplace, hstands⟩
    rw [Copying.copyOf_of_get? hplace]
    exact ha.rank_representative_le hc.loose hcall hunique hbelow hstands

/-- **Copying a value into another graph transplants it**, where reading has no cycles in the
source and the entries given beforehand are values. -/
theorem copyInto_transplants (hsource : source.Kept) (hranked : source.Ranked rank)
    (hroot : source.member? root = some payload) (hvalue : payload.kind.isA .value = true)
    (h : g.Kept) (hgiven : ∀ {target}, Given table target → g.Offers target .value) :
    (copyInto source root).Ends ⟨g, table⟩ fun r t => ∃ moved copied,
      r = .ok (moved root) ∧ Transplanted source g table moved copied t.target ∧ copied root := by
  have hstart : Copying.Transcribed source g table ⟨⟨g, table⟩, []⟩ := by
    refine ⟨.refl h hgiven, fun hplace => hplace, ?_, ?_, List.nodup_nil, by simp⟩
    · intro id place hplace hnone
      have hplace' : table.get? id = some place := hplace
      rw [hnone] at hplace'
      exact absurd hplace' (by simp)
    · intro place hlow hlt
      have hlt' : place.index < g.nodes.size := hlt
      omega
  obtain ⟨bound, c, hwalk, htranscribes, place, hplace⟩ := Copying.walk_transcribes []
    hsource hranked hroot hvalue hstart (by simp [Copying.Open])
      (Nat.le_add_right source.nodes.size _)
  have hend : Copying.walk (fun _ => source) bound [] c = ⟨.ok (), c, []⟩ := by rw [Copying.walk]
  rw [hend] at hwalk
  have hdone := htranscribes.done
  obtain ⟨a, hresult, hstate, hgrafting, hstands⟩ :=
    attachResolving_grafts hdone.loose (hdone.reads hplace)
  have hroot' : c.copyOf root = place := Copying.copyOf_of_get? hplace
  have houtcome : (copyInto source root ⟨g, table⟩).result = .ok (a.representative place) ∧
      (copyInto source root ⟨g, table⟩).state.target = a.graph := by
    unfold copyInto
    rw [hwalk]
    simp only
    rw [← Copying.copyOf, hroot']
    cases hattach : attachResolving place c.transfer.target with
    | mk result state reports =>
      rw [hattach] at hresult hstate
      simp only at hresult hstate
      subst hresult hstate
      exact ⟨rfl, rfl⟩
  obtain ⟨hcopied, htarget⟩ := houtcome
  have htransplanted := transplanted_of_grafting hdone hgrafting
  refine ⟨_, _, ?_, htarget ▸ htransplanted, place, hplace, hstands⟩
  rw [hcopied, hroot']

/-! ## 2. What transplanted values come to -/

namespace Transplanted

variable {I J : Interpretation α}

/-- Members stay what they are. -/
theorem member? (h : Transplanted source g table moved copied g')
    (hmember : g.member? id = some payload) :
    g'.member? id = some payload := by
  obtain ⟨node, hnode, hstate, rfl⟩ := member?_eq_some_iff.mp hmember
  obtain ⟨node', hnode', hstate', hpayload'⟩ := h.old hnode
  exact member?_eq_some_iff.mpr ⟨node', hnode', hstate'.trans hstate, hpayload'⟩

/-- The members of before come to what they came to. -/
theorem value_old (h : Transplanted source g table moved copied g') (hkept : g.Kept)
    (hranked : g.Ranked rank) (hranked' : g'.Ranked rank') (hmember : g.member? id = some payload) :
    I.value g id = I.value g' id := by
  refine hranked.induct hkept (P := fun id => I.value g id = I.value g' id) ?_ hmember
  intro id payload hmember hreads
  have hself : payload.mapEdges (fun target => target) = payload :=
    Payload.mapEdges_eq_self fun _ _ => rfl
  exact Interpretation.value_eq_of_reads hkept hranked h.kept hranked' (f := fun target => target)
    hmember (by rw [hself]; exact h.member? hmember) rfl hreads

/-- **Who stands for a node comes to what the node comes to**, if that is so of the nodes with an
entry. -/
theorem value_eq (h : Transplanted source g table moved copied g') (hsource : source.Kept)
    (hranked : source.Ranked rank) (hranked' : g'.Ranked rank')
    (hstep : ∀ {id payload}, source.member? id = some payload → table.get? id = none →
      I.step (moved id) payload = J.step id payload)
    (htable : ∀ {id arg payload}, table.get? id = some arg → source.member? id = some payload →
      J.value source id = I.value g' arg)
    (hmember : source.member? id = some payload) (hid : copied id) :
    J.value source id = I.value g' (moved id) := by
  refine hranked.induct hsource (P :=
    fun id => copied id → J.value source id = I.value g' (moved id)) ?_ hmember hid
  intro id payload hmember ih hid
  cases hentry : table.get? id with
  | some arg =>
    rw [h.given hentry]
    exact htable hentry hmember
  | none =>
    obtain ⟨found, hfound, -, hmember', hreads⟩ := h.reads hid hentry
    rw [hmember] at hfound
    obtain rfl := Option.some.inj hfound
    exact Interpretation.value_eq_of_reads hsource hranked h.kept hranked' hmember hmember'
      (hstep hmember hentry) fun target htarget => ih target htarget (hreads target htarget)

end Transplanted

end Graph

end BehaviorGraph
