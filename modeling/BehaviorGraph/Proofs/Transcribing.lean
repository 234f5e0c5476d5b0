/-
# Transcribing values

A copying walk takes a value of one graph, with everything it reads, to the end of the arena of
another.  Nodes that have an entry in the table beforehand are not copied, and the copies read the
entries instead.  `Transcribed` says how far a walk has got: **every node with an entry of its own
has a copy that reads the entries of what the node reads**.

The copies are not attached.  They are loose: values that read entries given beforehand and, apart
from these, nothing but loose values in front of them (`Loose`).

Where reading has no cycles a walk meets no fault.  The steps it makes for one node, between
entering and leaving it, are taken together (`Transcribes`), so that the argument is an induction
on the rank of the node and the steps still to be made do not matter (`walk_transcribes`).
-/
import BehaviorGraph.Proofs.Outline

namespace BehaviorGraph

/-! ## 1. Copies of payloads -/

namespace Payload

variable {payload : Payload} {f f' : NodeId → NodeId}

theorem mapEdges_congr (h : ∀ target ∈ payload.edges, f target = f' target) :
    payload.mapEdges f = payload.mapEdges f' := by
  have hmap : ∀ slots : List Slot, (∀ slot ∈ slots, slot ∈ payload.slots) →
      (slots.map Slot.target).map (Option.map f) = (slots.map Slot.target).map (Option.map f') := by
    intro slots hslots
    rw [List.map_map, List.map_map]
    refine List.map_congr_left fun slot hslot => ?_
    cases htarget : slot.target with
    | none => simp [htarget]
    | some target =>
      have hin := mem_edges_iff.mpr ⟨slot, hslots slot hslot, htarget⟩
      simp [htarget, h target hin]
  unfold mapEdges inputs successors
  rw [hmap payload.inputSlots fun slot => List.mem_append_left _,
    hmap payload.successorSlots fun slot => List.mem_append_right _]

theorem assignSuccessors_of_isValue (h : payload.kind.isA .value = true)
    (given : List (Option NodeId)) : payload.assignSuccessors given = payload := by
  cases payload <;> first | rfl | exact Bool.noConfusion h

/-- **The copy of a value reads the entries of what the value reads**, if they all have one. -/
theorem copy_eq_mapEdges (hvalue : payload.kind.isA .value = true) {copies : Table NodeId NodeId}
    (h : ∀ target ∈ payload.inputEdges, ∃ place, copies.get? target = some place) :
    (payload.assignInputs (payload.inputs.map fun target =>
      target.bind copies.get?)).clearSuccessors
      = payload.mapEdges fun target => (copies.get? target).getD target := by
  have hinputs : (payload.inputs.map fun target => target.bind copies.get?)
      = payload.inputs.map (Option.map fun target => (copies.get? target).getD target) := by
    refine List.map_congr_left fun target htarget => ?_
    cases target with
    | none => rfl
    | some target =>
      obtain ⟨place, hplace⟩ := h target (mem_inputs_iff.mp htarget)
      simp [hplace]
  have hkind : ∀ given, (payload.assignInputs given).kind.isA .value = true := by
    intro given
    rwa [kind_assignInputs]
  rw [hinputs, clearSuccessors, mapEdges, assignSuccessors_of_isValue (hkind _),
    assignSuccessors_of_isValue (hkind _)]

end Payload

namespace Graph

variable {source g g' : Graph} {table : Table NodeId NodeId} {id place : NodeId} {payload : Payload}
  {rank : NodeId → Nat}

/-! ## 2. Loose values -/

/-- A node is an entry of the table. -/
def Given (table : Table NodeId NodeId) (target : NodeId) : Prop :=
  ∃ id, table.get? id = some target

/-- **`g'` is `g` with loose values at the end of the arena**: they are detached, and read what is
given or loose values in front of them.  What is given are values of `g`. -/
structure Loose (g : Graph) (table : Table NodeId NodeId) (g' : Graph) : Prop where
  kept : g'.Kept
  given : ∀ {target}, Given table target → g.Offers target .value
  size : g.nodes.size ≤ g'.nodes.size
  old : ∀ {id}, id.index < g.nodes.size → g'.node? id = g.node? id
  new : ∀ {id node}, g.nodes.size ≤ id.index → g'.node? id = some node →
    node.state = .detached ∧ node.payload.kind.isA .value = true ∧
      ∀ target ∈ node.payload.inputEdges,
        Given table target ∨ (g.nodes.size ≤ target.index ∧ target.index < id.index)
  framed : g.Framed g'

namespace Loose

theorem refl (h : g.Kept) (hgiven : ∀ {target}, Given table target → g.Offers target .value) :
    Loose g table g := by
  refine ⟨h, hgiven, Nat.le_refl _, fun _ => rfl, ?_, .refl g⟩
  intro id node hindex hnode
  have hlt := lt_size_of_node? hnode
  omega

/-- One more loose value may read all those that are there. -/
theorem push (h : Loose g table g') (hvalue : payload.kind.isA .value = true)
    (hreads : ∀ target ∈ payload.inputEdges,
      Given table target ∨ (g.nodes.size ≤ target.index ∧ target.index < g'.nodes.size)) :
    Loose g table (g'.push payload) := by
  have hsize := h.size
  refine ⟨h.kept.push payload, h.given, ?_, ?_, ?_, h.framed.trans (framed_push g' payload)⟩
  · rw [Graph.push, Array.size_push]
    omega
  · intro id hindex
    rw [node?_push, if_neg (by omega)]
    exact h.old hindex
  · intro id node hindex hnode
    rw [node?_push] at hnode
    split at hnode
    · rename_i hlast
      obtain rfl := Option.some.inj hnode
      rw [hlast]
      exact ⟨rfl, hvalue, hreads⟩
    · exact h.new hindex hnode

end Loose

/-! ## 3. How far a walk has got -/

namespace Copying

variable {c c' c'' : Copying} {bound bound' bound'' : Nat} {rest : List (Task NodeId)}

/-- The entry of a node, or the node itself if it has none. -/
def copyOf (c : Copying) (id : NodeId) : NodeId := (c.transfer.copies.get? id).getD id

theorem copyOf_of_get? (h : c.transfer.copies.get? id = some place) : c.copyOf id = place := by
  rw [copyOf, h, Option.getD_some]

/-- **Every node with an entry of its own has a copy that reads the entries of what the node
reads.** -/
structure Transcribed (source g : Graph) (table : Table NodeId NodeId) (c : Copying) : Prop where
  loose : Loose g table c.transfer.target
  given : ∀ {id place}, table.get? id = some place → c.transfer.copies.get? id = some place
  copied : ∀ {id place}, c.transfer.copies.get? id = some place → table.get? id = none →
    g.nodes.size ≤ place.index ∧ ∃ payload, source.member? id = some payload ∧
      payload.kind.isA .value = true ∧
      c.transfer.target.payload? place = some (payload.mapEdges c.copyOf) ∧
      ∀ target ∈ payload.inputEdges, ∃ place', c.transfer.copies.get? target = some place'
  /-- Every loose value is a copy. -/
  covered : ∀ {place}, g.nodes.size ≤ place.index → place.index < c.transfer.target.nodes.size →
    ∃ id, c.transfer.copies.get? id = some place ∧ table.get? id = none
  nodup : c.entered.Nodup
  entered : ∀ id ∈ c.entered, ∃ payload, source.member? id = some payload

/-- What is copied may be read by a copy. -/
theorem Transcribed.reads (h : Transcribed source g table c) {target : NodeId}
    (hplace : c.transfer.copies.get? target = some place) :
    Given table place ∨ (g.nodes.size ≤ place.index ∧
      place.index < c.transfer.target.nodes.size) := by
  cases htable : table.get? target with
  | some given =>
    rw [h.given htable] at hplace
    obtain rfl := Option.some.inj hplace
    exact Or.inl ⟨target, htable⟩
  | none =>
    obtain ⟨hindex, payload, -, -, hpayload, -⟩ := h.copied hplace htable
    obtain ⟨node, hnode, -⟩ := Option.map_eq_some_iff.mp hpayload
    exact Or.inr ⟨hindex, lt_size_of_node? hnode⟩

/-- Entries are never changed. -/
def Keeps (c c' : Copying) : Prop :=
  ∀ {id place}, c.transfer.copies.get? id = some place → c'.transfer.copies.get? id = some place

/-- A copy made from entries stays one when there are more of them. -/
theorem mapEdges_copyOf (hvalue : payload.kind.isA .value = true) (hkeeps : c.Keeps c')
    (hreads : ∀ target ∈ payload.inputEdges, ∃ place, c.transfer.copies.get? target = some place) :
    payload.mapEdges c'.copyOf = payload.mapEdges c.copyOf := by
  refine Payload.mapEdges_congr fun target htarget => ?_
  rw [Payload.edges_of_isValue hvalue] at htarget
  obtain ⟨place, hplace⟩ := hreads target htarget
  rw [copyOf_of_get? hplace, copyOf_of_get? (hkeeps hplace)]

theorem get?_leave (c : Copying) (id : NodeId) (payload : Payload) (other : NodeId) :
    (c.leave id payload).transfer.copies.get? other
      = if other = id then some ⟨c.transfer.target.nodes.size⟩
        else c.transfer.copies.get? other := by
  show (c.transfer.copies.insert id ⟨c.transfer.target.nodes.size⟩).get? other = _
  split
  · rename_i heq
    rw [heq, Table.get?_insert_self]
  · rename_i hne
    exact Table.get?_insert_of_ne _ _ hne

/-- A node that is left had no entry before. -/
theorem keeps_leave (hnone : c.transfer.copies.get? id = none) (payload : Payload) :
    c.Keeps (c.leave id payload) := by
  intro other place hother
  rw [get?_leave, if_neg ?_, hother]
  rintro rfl
  rw [hnone] at hother
  exact absurd hother (by simp)

/-- **Leaving a node adds its copy.** -/
theorem Transcribed.leave (h : Transcribed source g table c)
    (hmember : source.member? id = some payload)
    (hvalue : payload.kind.isA .value = true) (hnone : c.transfer.copies.get? id = none)
    (hreads : ∀ target ∈ payload.inputEdges, ∃ place, c.transfer.copies.get? target = some place) :
    Transcribed source g table (c.leave id payload) := by
  have hkeeps : c.Keeps (c.leave id payload) := keeps_leave hnone payload
  have hsize := h.loose.size
  have hcopy : (c.leave id payload).transfer.target
      = c.transfer.target.push (payload.mapEdges c.copyOf) :=
    congrArg c.transfer.target.push (Payload.copy_eq_mapEdges hvalue hreads)
  have htable : table.get? id = none := by
    cases hgiven : table.get? id with
    | none => rfl
    | some place =>
      rw [h.given hgiven] at hnone
      exact absurd hnone (by simp)
  refine ⟨?_, fun hgiven => hkeeps (h.given hgiven), ?_, ?_, h.nodup, h.entered⟩
  · rw [hcopy]
    refine h.loose.push (by rwa [Payload.kind_mapEdges]) fun target htarget => ?_
    rw [Payload.inputEdges_mapEdges] at htarget
    obtain ⟨before, hbefore, rfl⟩ := List.mem_map.mp htarget
    obtain ⟨place, hplace⟩ := hreads before hbefore
    rw [copyOf_of_get? hplace]
    exact h.reads hplace
  · intro other place hplace hother
    rw [get?_leave] at hplace
    split at hplace
    · rename_i heq
      subst heq
      obtain rfl := Option.some.inj hplace
      refine ⟨hsize, payload, hmember, hvalue, ?_, fun target htarget => ?_⟩
      · rw [hcopy, payload?, node?_push, if_pos rfl, mapEdges_copyOf hvalue hkeeps hreads]
        rfl
      · obtain ⟨place, hplace⟩ := hreads target htarget
        exact ⟨place, hkeeps hplace⟩
    · obtain ⟨hindex, found, hfound, hkind, hpayload, hfoundReads⟩ := h.copied hplace hother
      obtain ⟨node, hnode, -⟩ := Option.map_eq_some_iff.mp hpayload
      have hlt := lt_size_of_node? hnode
      refine ⟨hindex, found, hfound, hkind, ?_, fun target htarget => ?_⟩
      · rw [hcopy, payload?, node?_push, if_neg (by omega),
          mapEdges_copyOf hkind hkeeps hfoundReads]
        exact hpayload
      · obtain ⟨place, hplace⟩ := hfoundReads target htarget
        exact ⟨place, hkeeps hplace⟩
  · intro place hindex hlt
    rw [hcopy, Graph.push, Array.size_push] at hlt
    by_cases hlast : place.index = c.transfer.target.nodes.size
    · refine ⟨id, ?_, htable⟩
      rw [get?_leave, if_pos rfl]
      exact congrArg some (congrArg NodeId.mk hlast.symm)
    · obtain ⟨other, hother, hfree⟩ := h.covered hindex (by omega)
      exact ⟨other, hkeeps hother, hfree⟩

/-- Entering a node changes nothing else. -/
theorem Transcribed.enter (h : Transcribed source g table c)
    (hmember : source.member? id = some payload)
    (hfresh : id ∉ c.entered) :
      Transcribed source g table { c with entered := id :: c.entered } := by
  refine ⟨h.loose, h.given, h.copied, h.covered, List.nodup_cons.mpr ⟨hfresh, h.nodup⟩, ?_⟩
  intro other hother
  rcases List.mem_cons.mp hother with rfl | hother
  · exact ⟨payload, hmember⟩
  · exact h.entered other hother

/-- While there is a node to enter, not all nodes were. -/
theorem Transcribed.length_lt (h : Transcribed source g table c)
    (hmember : source.member? id = some payload) (hfresh : id ∉ c.entered) :
    c.entered.length < source.nodes.size := by
  have hnodup : (id :: c.entered).Nodup := List.nodup_cons.mpr ⟨hfresh, h.nodup⟩
  have hsub : id :: c.entered ⊆ source.ids := by
    intro other hother
    have hother' := (h.enter hmember hfresh).entered other hother
    obtain ⟨found, hfound⟩ := hother'
    obtain ⟨node, hnode, -, -⟩ := member?_eq_some_iff.mp hfound
    exact mem_ids_iff.mpr (lt_size_of_node? hnode)
  have hlength := (List.subperm_of_subset hnodup hsub).length_le
  rw [List.length_cons, ids, List.length_map, List.length_range] at hlength
  exact hlength

/-! ## 4. The whole walk -/

/-- What has been done between two points of a walk: more is transcribed, and what was entered
meanwhile has an entry.  What was entered before and is still to be left waits.  Each node is
entered once, so the bound stays large enough. -/
structure Transcribes (source g : Graph) (table : Table NodeId NodeId) (c : Copying) (bound : Nat)
    (c' : Copying) (bound' : Nat) : Prop where
  done : Transcribed source g table c'
  keeps : c.Keeps c'
  grows : ∀ id ∈ c.entered, id ∈ c'.entered
  entered : ∀ id ∈ c'.entered, id ∈ c.entered ∨ ∃ place, c'.transfer.copies.get? id = some place
  waits : ∀ id ∈ c.entered, c.transfer.copies.get? id = none → c'.transfer.copies.get? id = none
  bound : source.nodes.size ≤ bound + c.entered.length →
    source.nodes.size ≤ bound' + c'.entered.length

namespace Transcribes

theorem refl (h : Transcribed source g table c) (bound : Nat) :
    Transcribes source g table c bound c bound :=
  ⟨h, fun hplace => hplace, fun _ hid => hid, fun _ hid => Or.inl hid, fun _ _ hnone => hnone,
    fun hbound => hbound⟩

theorem trans (h : Transcribes source g table c bound c' bound')
    (h' : Transcribes source g table c' bound' c'' bound'') :
    Transcribes source g table c bound c'' bound'' := by
  refine ⟨h'.done, fun hplace => h'.keeps (h.keeps hplace), fun id hid =>
    h'.grows id (h.grows id hid),
    fun id hid => ?_, fun id hid hnone => h'.waits id (h.grows id hid) (h.waits id hid hnone),
    fun hbound => h'.bound (h.bound hbound)⟩
  rcases h'.entered id hid with hid' | hcopied
  · rcases h.entered id hid' with hid'' | ⟨place, hplace⟩
    · exact Or.inl hid''
    · exact Or.inr ⟨place, h'.keeps hplace⟩
  · exact Or.inr hcopied

/-- Between entering a node and leaving it all its reads were transcribed. -/
theorem leave (h : Transcribes source g table { c with entered := id :: c.entered } bound c' bound')
    (hmember : source.member? id = some payload) (hvalue : payload.kind.isA .value = true)
    (hfresh : id ∉ c.entered) (hnone : c.transfer.copies.get? id = none)
    (hreads : ∀ target ∈ payload.inputEdges, ∃ place, c'.transfer.copies.get? target = some place) :
    Transcribes source g table c (bound + 1) (c'.leave id payload) bound' := by
  have hnone' : c'.transfer.copies.get? id = none := h.waits id (by simp) hnone
  have hkeeps : c'.Keeps (c'.leave id payload) := keeps_leave hnone' payload
  refine ⟨h.done.leave hmember hvalue hnone' hreads, fun hplace => hkeeps (h.keeps hplace),
    fun other hother => h.grows other (List.mem_cons_of_mem id hother), fun other hother => ?_,
    fun other hother hother' => ?_, fun hbound => ?_⟩
  · rcases h.entered other hother with hin | ⟨place, hplace⟩
    · rcases List.mem_cons.mp hin with rfl | hin
      · exact Or.inr ⟨_, by rw [get?_leave, if_pos rfl]⟩
      · exact Or.inl hin
    · exact Or.inr ⟨place, hkeeps hplace⟩
  · have hne : other ≠ id := by
      rintro rfl
      exact hfresh hother
    rw [get?_leave, if_neg hne]
    exact h.waits other (List.mem_cons_of_mem id hother) hother'
  · refine h.bound ?_
    simp only [List.length_cons]
    omega

end Transcribes

/-- A value may be entered: whatever was entered before and has no entry yet reads it, at some
distance. -/
def Open (rank : NodeId → Nat) (c : Copying) (level : Nat) : Prop :=
  ∀ id ∈ c.entered, c.transfer.copies.get? id = none → level ≤ rank id

/-- What was entered meanwhile is no obstacle. -/
theorem Open.later {level : Nat} (hopen : Open rank c level)
    (h : Transcribes source g table c bound c' bound') : Open rank c' level := by
  intro id hid hnone
  rcases h.entered id hid with hid' | ⟨place, hplace⟩
  · cases hbefore : c.transfer.copies.get? id with
    | none => exact hopen id hid' hbefore
    | some place =>
      rw [h.keeps hbefore] at hnone
      exact absurd hnone (by simp)
  · rw [hplace] at hnone
    exact absurd hnone (by simp)

/-- The walk takes care of a list of nodes if it takes care of each. -/
theorem walk_list {level : Nat} (targets : List NodeId) (rest : List (Task NodeId))
    (hstep : ∀ target ∈ targets, ∀ (rest : List (Task NodeId)) {bound : Nat} {c : Copying},
      Transcribed source g table c → Open rank c level →
        source.nodes.size ≤ bound + c.entered.length →
        ∃ bound' c', walk (fun _ => source) bound (.enter target :: rest) c
            = walk (fun _ => source) bound' rest c' ∧
          Transcribes source g table c bound c' bound' ∧
          ∃ place, c'.transfer.copies.get? target = some place)
    (h : Transcribed source g table c) (hopen : Open rank c level)
    (hbound : source.nodes.size ≤ bound + c.entered.length) :
    ∃ bound' c', walk (fun _ => source) bound (targets.map .enter ++ rest) c
        = walk (fun _ => source) bound' rest c' ∧
      Transcribes source g table c bound c' bound' ∧
      ∀ target ∈ targets, ∃ place, c'.transfer.copies.get? target = some place := by
  induction targets generalizing bound c with
  | nil => exact ⟨bound, c, rfl, .refl h bound, by simp⟩
  | cons target targets ih =>
    obtain ⟨between, c', hwalk, hdone, place, hplace⟩ :=
      hstep target (by simp) (targets.map .enter ++ rest) h hopen hbound
    obtain ⟨bound', c'', hwalk', hdone', hplaces⟩ :=
      ih (fun other hother => hstep other (List.mem_cons_of_mem target hother)) hdone.done
        (hopen.later hdone) (hdone.bound hbound)
    refine ⟨bound', c'', hwalk.trans hwalk', hdone.trans hdone', fun other hother => ?_⟩
    rcases List.mem_cons.mp hother with rfl | hother
    · exact ⟨place, hdone'.keeps hplace⟩
    · exact hplaces other hother

/-- **Where reading has no cycles, copying a value meets no fault.** -/
theorem walk_transcribes (rest : List (Task NodeId)) (hsource : source.Kept)
    (hranked : source.Ranked rank)
    (hmember : source.member? id = some payload) (hvalue : payload.kind.isA .value = true)
    (h : Transcribed source g table c) (hopen : Open rank c (rank id + 1))
    (hbound : source.nodes.size ≤ bound + c.entered.length) :
    ∃ bound' c', walk (fun _ => source) bound (.enter id :: rest) c
        = walk (fun _ => source) bound' rest c' ∧
      Transcribes source g table c bound c' bound' ∧
      ∃ place, c'.transfer.copies.get? id = some place := by
  -- By induction on the rank: what the node reads has a lower one.
  induction hlevel : rank id using Nat.strong_induction_on generalizing id payload bound rest c with
  | h level ih =>
    cases hcopied : c.transfer.copies.get? id with
    | some place =>
      refine ⟨bound, c, ?_, .refl h bound, place, hcopied⟩
      rw [walk]
      simp [enter, Table.contains, hcopied]
    | none =>
      obtain ⟨node, hnode, hstate, rfl⟩ := member?_eq_some_iff.mp hmember
      have hfresh : id ∉ c.entered := by
        intro hid
        have hle := hopen id hid hcopied
        omega
      have henter : c.enter source id = .ok (some node.payload) := by
        simp [enter, Table.contains, hcopied, Graph.node, hnode, bind, Except.bind, Node.isDeleted,
          hstate, hfresh, pure, Except.pure]
      have hlong := h.length_lt hmember hfresh
      obtain ⟨bound, rfl⟩ : ∃ less, bound = less + 1 := ⟨bound - 1, by omega⟩
      have hentered := h.enter hmember hfresh
      have hopen' : Open rank { c with entered := id :: c.entered } level := by
        intro other hother hnone
        rcases List.mem_cons.mp hother with rfl | hother
        · omega
        · have hle := hopen other hother hnone
          omega
      obtain ⟨bound', c', hwalk, hdone, hreads⟩ := walk_list node.payload.inputEdges
        (.leave id :: rest) (fun target htarget rest bound c h hopen hbound => by
          have hlt := hranked.falls hmember target htarget
          obtain ⟨found, hfound, hkind⟩ := hsource.value_of_mem_inputEdges hmember hvalue htarget
          refine ih (rank target) (by omega) rest hfound hkind h (fun other hother hnone =>
            ?_) hbound rfl
          have hle := hopen other hother hnone
          omega) hentered hopen' (show source.nodes.size ≤ bound + (id :: c.entered).length by
            simp only [List.length_cons]; omega)
      refine ⟨bound', c'.leave id node.payload, ?_,
        hdone.leave hmember hvalue hfresh hcopied hreads, _, by rw [get?_leave, if_pos rfl]⟩
      rw [walk, henter]
      simp only
      rw [hwalk, walk, payload?_of_member? hmember]

end Copying

end Graph

end BehaviorGraph
