/-
# Working off lists

Merging works off a queue and removing works off a stack, each with a bound on what it does.
`Merging.ComesTo` and `DeadValues.ComesTo` are the walks without it.  Every merge and every
deletion takes a member away, so **the bound is never met** (`Merging.comesTo_run`,
`DeadValues.comesTo_run`), and the number that is answered says how many members there are less.

The lists miss nothing: **who could be merged or removed is on the list**, or was met before with
the payload it has now (`Merging.Met`, `DeadValues.Stacked`).  A step that changes other nodes puts
them on the list again, so when the list is empty nothing is left to merge (`Graph.Distinct`) or to
remove (`Graph.Used`).  Whatever every single step keeps holds then, too (`Merging.run_merges`,
`DeadValues.run_removes`).

The two sections are built alike: equations for one turn of the loop, the loop without a bound as
an inductive relation, one induction over that relation for all that steps keep (`ComesTo.keeps`),
and the invariant about the list, which goes through it.
-/
import BehaviorGraph.Pass.DeadValues
import BehaviorGraph.Pass.Merging
import BehaviorGraph.Proofs.Handovers

namespace BehaviorGraph

/-! ## 1. Members that go -/

namespace Graph

variable {g g' : Graph} {old new id other : NodeId} {payload found : Payload}

/-- No two members that could be merged have the same payload. -/
def Distinct (g : Graph) : Prop :=
  ∀ {id other payload}, g.member? id = some payload → g.member? other = some payload →
    Merging.mergeable payload.kind = true → id = other

/-- Every value is used. -/
def Used (g : Graph) : Prop :=
  ∀ {id payload}, g.member? id = some payload → payload.kind.isA .value = true → g.usages id ≠ []

/-- **A graph that lost one member has one less.** -/
theorem length_members_of_gone (hmember : g.member? id = some payload)
    (hleft : ∀ other, g'.isActive other = true ↔ other ≠ id ∧ g.isActive other = true) :
    g'.members.length + 1 = g.members.length := by
  have hid : id ∉ g'.members := by
    intro hin
    exact ((hleft id).mp (isActive_iff.mpr (mem_members_iff.mp hin))).1 rfl
  have hperm : (id :: g'.members).Perm g.members := by
    refine (List.perm_ext_iff_of_nodup (List.nodup_cons.mpr ⟨hid, nodup_members g'⟩)
      (nodup_members g)).mpr fun other => ?_
    rw [List.mem_cons, mem_members_iff, ← isActive_iff, hleft, mem_members_iff, ← isActive_iff]
    refine ⟨?_, fun hactive => or_iff_not_imp_left.mpr fun hne => ⟨hne, hactive⟩⟩
    rintro (rfl | ⟨-, hactive⟩)
    · exact isActive_iff.mpr ⟨payload, hmember⟩
    · exact hactive
  simpa using hperm.length_eq

/-- The bound a run starts with. -/
theorem length_members_le (g : Graph) : g.members.length ≤ g.nodes.size := by
  refine (List.length_filter_le _ _).trans ?_
  simp [ids]

/-- While there is a member the bound is not used up. -/
theorem length_members_pos (hmember : g.member? id = some payload) : 0 < g.members.length :=
  List.length_pos_of_mem (mem_members_iff.mpr ⟨payload, hmember⟩)

/-- Withdrawing a node takes away this one member. -/
theorem isActive_withdraw_iff : (g.withdraw id payload).isActive other = true ↔
    other ≠ id ∧ g.isActive other = true := by
  rw [isActive_eq_isSome_member?, isActive_eq_isSome_member?, member?_withdraw]
  by_cases heq : other = id <;> simp [heq]

theorem length_members_withdraw (hmember : g.member? id = some found) (payload : Payload) :
    (g.withdraw id payload).members.length + 1 = g.members.length :=
  length_members_of_gone hmember fun _ => isActive_withdraw_iff

/-- Who is left was there before. -/
theorem member?_of_withdraw (hmember : (g.withdraw id payload).member? other = some found) :
    g.member? other = some found ∧ other ≠ id := by
  rw [member?_withdraw] at hmember
  split at hmember
  · exact absurd hmember (by simp)
  · rename_i hne
    exact ⟨hmember, hne⟩

/-- Who is left after an exchange was there before, and reads the new value in place of the old
one. -/
theorem Exchanged.exists_before (h : g.Exchanged old new g')
    (hmember : g'.member? id = some payload) :
    ∃ before, g.member? id = some before ∧ id ≠ old ∧ payload = before.mapEdges (swap old new) := by
  rw [h.member?] at hmember
  split at hmember
  · exact absurd hmember (by simp)
  · rename_i hne
    obtain ⟨before, hbefore, rfl⟩ := Option.map_eq_some_iff.mp hmember
    exact ⟨before, hbefore, hne, rfl⟩

/-- An exchange takes away the old value and no other member. -/
theorem Exchanged.isActive_iff (h : g.Exchanged old new g') :
    g'.isActive id = true ↔ id ≠ old ∧ g.isActive id = true := by
  rw [isActive_eq_isSome_member?, isActive_eq_isSome_member?, h.member?]
  by_cases heq : id = old <;> simp [heq]

/-- Only values are merged. -/
theorem isValue_of_mergeable {kind : Kind} (h : Merging.mergeable kind = true) :
    kind.isA .value = true := by
  cases kind <;> first | rfl | exact Bool.noConfusion h

end Graph

/-! ## 2. Equal nodes -/

namespace Merging

variable {g g' : Graph} {id canon : NodeId} {payload : Payload} {bound merged : Nat}
  {queue rest : List NodeId} {seen : Table Payload NodeId}

/-- A node that is gone by now is left out. -/
theorem mergeAll_of_inactive (h : g.isActive id = false) :
    mergeAll bound (id :: rest) seen merged g = mergeAll bound rest seen merged g := by
  rw [mergeAll]
  cases hpayload : g.payload? id <;> simp [hpayload, h]

/-- A member without a twin is remembered. -/
theorem mergeAll_of_none (h : g.member? id = some payload)
    (htwin : twin? g seen id payload = none) :
    mergeAll bound (id :: rest) seen merged g
      = mergeAll bound rest (seen.insert payload id) merged g := by
  have hactive : g.isActive id = true := Graph.isActive_iff.mpr ⟨payload, h⟩
  rw [mergeAll]
  simp [Graph.payload?_of_member? h, hactive, htwin]

/-- A member with a twin is replaced by it, and its users go on the queue again. -/
theorem mergeAll_succ (h : g.member? id = some payload)
    (htwin : twin? g seen id payload = some canon) :
    mergeAll (bound + 1) (id :: rest) seen merged g = (do
      let _ ← Graph.replace id canon
      let later ← Run.state
      mergeAll bound (rest ++ candidates later (g.users id)) seen (merged + 1) : Edit Nat) g := by
  have hactive : g.isActive id = true := Graph.isActive_iff.mpr ⟨payload, h⟩
  rw [mergeAll]
  simp [Graph.payload?_of_member? h, hactive, htwin]

/-- What stands for a member is another member with its payload. -/
theorem member?_of_twin? (h : twin? g seen id payload = some canon) :
    g.member? canon = some payload ∧ canon ≠ id := by
  obtain ⟨-, hsame⟩ := Option.filter_eq_some_iff.mp h
  simp only [Bool.and_eq_true, Bool.not_eq_true', decide_eq_false_iff_not, decide_eq_true_eq]
    at hsame
  obtain ⟨⟨hne, hactive⟩, hpayload⟩ := hsame
  obtain ⟨found, hfound⟩ := Graph.isActive_iff.mp hactive
  rw [Graph.payload?_of_member? hfound] at hpayload
  exact ⟨hpayload ▸ hfound, hne⟩

/-- **What working off the queue comes to without a bound**, if it comes to an end at all. -/
inductive ComesTo :
    List NodeId → Table Payload NodeId → Nat → Graph → Outcome Fault Graph Nat → Prop where
  | done {seen : Table Payload NodeId} {merged : Nat} {g : Graph} :
    ComesTo [] seen merged g ⟨.ok merged, g, []⟩
  | passed {id : NodeId} {rest : List NodeId} {seen : Table Payload NodeId}
    {merged : Nat} {g : Graph} {outcome : Outcome Fault Graph Nat} (h : g.member? id = none)
    (hrest : ComesTo rest seen merged g outcome) : ComesTo (id :: rest) seen merged g outcome
  | met {id : NodeId} {rest : List NodeId} {seen : Table Payload NodeId} {merged : Nat} {g : Graph}
    {outcome : Outcome Fault Graph Nat} {payload : Payload} (h : g.member? id = some payload)
    (htwin : twin? g seen id payload = none)
    (hrest : ComesTo rest (seen.insert payload id) merged g outcome) :
    ComesTo (id :: rest) seen merged g outcome
  | refused {id canon : NodeId} {rest : List NodeId} {seen : Table Payload NodeId} {merged : Nat}
    {g g' : Graph} {payload : Payload} {fault : Fault} {reports : List Report}
    (h : g.member? id = some payload) (htwin : twin? g seen id payload = some canon)
    (hreplace : Graph.replace id canon g = ⟨.error fault, g', reports⟩) :
    ComesTo (id :: rest) seen merged g ⟨.error fault, g', reports⟩
  | merged {id canon answer : NodeId} {rest : List NodeId} {seen : Table Payload NodeId}
    {merged : Nat}
    {g g' : Graph} {outcome : Outcome Fault Graph Nat} {payload : Payload} {reports : List Report}
    (h : g.member? id = some payload) (htwin : twin? g seen id payload = some canon)
    (hreplace : Graph.replace id canon g = ⟨.ok answer, g', reports⟩)
    (hrest : ComesTo (rest ++ candidates g' (g.users id)) seen (merged + 1) g' outcome) :
    ComesTo (id :: rest) seen merged g (outcome.after reports)

/-- Replacing a member by another one, if that succeeds, leaves one member less. -/
theorem length_members_replace {found : Payload} (h : g.Kept)
    (hmember : g.member? id = some payload)
    (hcanon : g.member? canon = some found) (hne : canon ≠ id) {answer : NodeId}
    (hok : (Graph.replace id canon g).result = .ok answer) :
    (Graph.replace id canon g).state.members.length + 1 = g.members.length := by
  obtain ⟨node, hnode, -⟩ := Graph.member?_eq_some_iff.mp hmember
  rcases h.replace_members hmember hcanon hne with
    ⟨-, hfault, -⟩ | ⟨-, _, -, hfault, -⟩ | ⟨-, -, -, hstate⟩
  · rw [hfault] at hok
    exact absurd hok (by simp)
  · rw [hfault] at hok
    exact absurd hok (by simp)
  · refine Graph.length_members_of_gone hmember fun other => ?_
    rw [hstate, Graph.isActive_withdraw_iff, Graph.isActive_eq_isSome_member?,
      Graph.member?_redirect h hne hnode, Option.isSome_map, ← Graph.isActive_eq_isSome_member?]

/-- **The queue is worked off before the bound is met.**  A turn either merges, which takes a step
of the bound and a member, or makes the queue shorter. -/
theorem comesTo_mergeAll {bound : Nat} {queue : List NodeId} {seen : Table Payload NodeId}
    {merged : Nat} {g : Graph} (h : g.Kept) (hbound : g.members.length ≤ bound) :
    ComesTo queue seen merged g (mergeAll bound queue seen merged g) := by
  cases queue with
  | nil =>
    rw [mergeAll]
    exact .done
  | cons id rest =>
    cases hmember : g.member? id with
    | none =>
      have hactive : g.isActive id = false := by rw [Graph.isActive_eq_isSome_member?, hmember]; rfl
      rw [mergeAll_of_inactive hactive]
      exact .passed hmember (comesTo_mergeAll h hbound)
    | some payload =>
      cases htwin : twin? g seen id payload with
      | none =>
        rw [mergeAll_of_none hmember htwin]
        exact .met hmember htwin (comesTo_mergeAll h hbound)
      | some canon =>
        cases bound with
        | zero => exact absurd (Graph.length_members_pos hmember) (by omega)
        | succ bound =>
          obtain ⟨hcanon, hne⟩ := member?_of_twin? htwin
          rw [mergeAll_succ hmember htwin]
          cases hreplace : Graph.replace id canon g with
          | mk result g' reports =>
            have hstate : (Graph.replace id canon g).state = g' := congrArg Outcome.state hreplace
            cases result with
            | error fault =>
              rw [Run.bind_error hreplace]
              exact .refused hmember htwin hreplace
            | ok answer =>
              have hkept : (Graph.replace id canon g).state.Kept :=
                Graph.replace_preserves id canon g h
              have hless :=
                length_members_replace h hmember hcanon hne (congrArg Outcome.result hreplace)
              rw [hstate] at hkept hless
              rw [Run.bind_ok hreplace]
              exact .merged hmember htwin hreplace (comesTo_mergeAll hkept (by omega))
termination_by (bound, queue.length)

/-- A run works off all the candidates, with nothing remembered. -/
theorem comesTo_run (h : g.Kept) : ComesTo (candidates g g.members) Table.empty 0 g (run g) :=
  comesTo_mergeAll h g.length_members_le

/-- **What every step keeps, working off the queue keeps**: who is no member is left out, who has
no twin is remembered, and who has one is given up for it.  The number of merges is that of the
members that are gone. -/
theorem ComesTo.keeps {P : List NodeId → Table Payload NodeId → Graph → Prop}
    (hskip : ∀ {id rest seen g}, P (id :: rest) seen g → g.member? id = none → P rest seen g)
    (hmeet : ∀ {id rest seen g payload}, P (id :: rest) seen g → g.member? id = some payload →
      twin? g seen id payload = none → P rest (seen.insert payload id) g)
    (hmerge : ∀ {id rest seen g payload canon}, P (id :: rest) seen g →
      g.member? id = some payload →
      g.member? canon = some payload → canon ≠ id → (Graph.replace id canon).Ends g fun r later =>
        r = .ok canon ∧ g.Exchanged id canon later ∧
          P (rest ++ candidates later (g.users id)) seen later)
    {outcome : Outcome Fault Graph Nat} (hends : ComesTo queue seen merged g outcome)
    (h : P queue seen g) : ∃ count, outcome.result = .ok count ∧
      outcome.state.members.length + count = g.members.length + merged ∧ ∃ seen',
        P [] seen' outcome.state := by
  induction hends with
  | done => exact ⟨_, rfl, rfl, _, h⟩
  | passed hnone _ ih => exact ih (hskip h hnone)
  | met hmember htwin _ ih => exact ih (hmeet h hmember htwin)
  -- `hmerge` says that replacing a member by its twin succeeds, so this turn does not occur.
  | refused hmember htwin hreplace =>
    obtain ⟨hcanon, hne⟩ := member?_of_twin? htwin
    obtain ⟨hok, -⟩ := hmerge h hmember hcanon hne
    rw [hreplace] at hok
    exact absurd hok (by simp)
  | merged hmember htwin hreplace _ ih =>
    obtain ⟨hcanon, hne⟩ := member?_of_twin? htwin
    obtain ⟨-, hexchanged, hlater⟩ := hmerge h hmember hcanon hne
    rw [hreplace] at hexchanged hlater
    have hless := Graph.length_members_of_gone hmember fun _ => hexchanged.isActive_iff
    obtain ⟨count, hok, hcount, hdone⟩ := ih hlater
    exact ⟨count, hok, by simp only [Outcome.after] at hless ⊢; omega, hdone⟩

/-- The members of the queue can be merged. -/
def Mergeable (g : Graph) (queue : List NodeId) : Prop :=
  ∀ id ∈ queue, ∀ {payload}, g.member? id = some payload → mergeable payload.kind = true

/-- Only nodes that can be merged are candidates. -/
theorem mergeable_candidates (g : Graph) (ids : List NodeId) : Mergeable g (candidates g ids) := by
  intro id hid payload hmember
  have hkind := (List.mem_filter.mp hid).2
  rwa [Graph.kind?_of_member? hmember] at hkind

theorem Mergeable.tail (h : Mergeable g (id :: rest)) : Mergeable g rest :=
  fun other hother => h other (List.mem_cons_of_mem id hother)

/-- The rest of the queue can be merged, and so can the candidates that are put behind it. -/
theorem Mergeable.merge (h : Mergeable g (id :: rest)) (hexchanged : g.Exchanged id canon g')
    (users : List NodeId) : Mergeable g' (rest ++ candidates g' users) := by
  intro other hother found hfound
  rcases List.mem_append.mp hother with hin | hin
  · obtain ⟨before, hbefore, -, rfl⟩ := hexchanged.exists_before hfound
    rw [Payload.kind_mapEdges]
    exact h other (List.mem_cons_of_mem id hin) hbefore
  · exact mergeable_candidates g' users other hin hfound

/-- **Who could be merged is in the queue**, or was met with the payload it has now. -/
def Met (queue : List NodeId) (seen : Table Payload NodeId) (g : Graph) : Prop :=
  ∀ id payload, g.member? id = some payload → mergeable payload.kind = true →
    id ∈ queue ∨ seen.get? payload = some id

namespace Met

/-- In the beginning every candidate is in the queue. -/
theorem of_members (g : Graph) : Met (candidates g g.members) seen g := by
  intro id payload hmember hkind
  refine Or.inl (List.mem_filter.mpr ⟨Graph.mem_members_iff.mpr ⟨payload, hmember⟩, ?_⟩)
  simp only [Graph.kind?_of_member? hmember, hkind]

/-- Who is gone need not be met. -/
theorem skip (h : Met (id :: rest) seen g) (hnone : g.member? id = none) : Met rest seen g := by
  intro other payload hmember hkind
  refine (h _ _ hmember hkind).imp_left fun hin => (List.mem_cons.mp hin).resolve_left ?_
  rintro rfl
  exact absurd (hnone.symm.trans hmember) (by simp)

/-- A member without a twin is remembered.  What is forgotten for it has another payload by now. -/
theorem meet (h : Met (id :: rest) seen g) (hmember : g.member? id = some payload)
    (htwin : twin? g seen id payload = none) : Met rest (seen.insert payload id) g := by
  intro other found hfound hkind
  by_cases heq : other = id
  · subst heq
    obtain rfl := Option.some.inj (hmember.symm.trans hfound)
    exact Or.inr (Table.get?_insert_self _ _ _)
  · refine (h _ _ hfound hkind).imp (fun hin => (List.mem_cons.mp hin).resolve_left heq)
      fun hseen => ?_
    -- The one remembered for the payload would have been the twin.
    have hne : found ≠ payload := by
      rintro rfl
      have hactive : g.isActive other = true := Graph.isActive_iff.mpr ⟨found, hfound⟩
      rw [twin?, hseen] at htwin
      simp [Option.filter, heq, hactive, Graph.payload?_of_member? hfound] at htwin
    rw [Table.get?_insert_of_ne _ _ hne]
    exact hseen

/-- A member is merged with its twin.  Whose payload that changes is put on the queue again. -/
theorem merge (h : Met (id :: rest) seen g) (hkept : g.Kept) (hmember : g.member? id = some payload)
    (hexchanged : g.Exchanged id canon g') :
    Met (rest ++ Merging.candidates g' (g.users id)) seen g' := by
  intro other found hfound hkind
  obtain ⟨before, hbefore, hother, rfl⟩ := hexchanged.exists_before hfound
  have hkind' := hkind
  rw [Payload.kind_mapEdges] at hkind
  obtain hin | hseen := h _ _ hbefore hkind
  · exact Or.inl (List.mem_append_left _ ((List.mem_cons.mp hin).resolve_left hother))
  · by_cases huses : id ∈ before.edges
    · obtain ⟨node, hnode, -⟩ := Graph.member?_eq_some_iff.mp hmember
      have huser := (Graph.mem_users_iff hkept hnode hbefore).mpr huses
      refine Or.inl (List.mem_append_right _ (List.mem_filter.mpr ⟨huser, ?_⟩))
      simp only [Graph.kind?_of_member? hfound, hkind']
    · refine Or.inr ?_
      rwa [Payload.mapEdges_eq_self fun target htarget => swap_of_ne ?_]
      rintro rfl
      exact huses htarget

/-- In the end there are no two members to be merged: both were met with their payload. -/
theorem distinct (h : Met [] seen g) : g.Distinct := by
  intro id other payload hmember hother hkind
  have hseen := (h _ _ hmember hkind).resolve_left (by simp)
  have hseen' := (h _ _ hother hkind).resolve_left (by simp)
  exact Option.some.inj (hseen.symm.trans hseen')

end Met

/-- **What every merge keeps a run keeps**, and it leaves nothing to merge. -/
theorem run_merges {P : Graph → Prop} (hkept : ∀ {g}, P g → g.Kept)
    (hmerge : ∀ {g id canon payload}, P g → g.member? id = some payload →
      mergeable payload.kind = true → g.member? canon = some payload → canon ≠ id →
        (Graph.replace id canon).Ends g fun r later =>
          r = .ok canon ∧ g.Exchanged id canon later ∧ P later) (h : P g) :
    run.Ends g fun r g' => ∃ count, r = .ok count ∧ g'.size + count = g.size ∧ P g' ∧
      g'.Distinct := by
  -- The induction carries what is kept together with the two facts about the queue.
  obtain ⟨count, hok, hcount, seen, hlater, -, hmet⟩ := (comesTo_run (hkept h)).keeps
    (P := fun queue seen g => P g ∧ Mergeable g queue ∧ Met queue seen g)
    (fun h hnone => ⟨h.1, h.2.1.tail, h.2.2.skip hnone⟩)
    (fun h hmember htwin => ⟨h.1, h.2.1.tail, h.2.2.meet hmember htwin⟩)
    (fun {id _ _ _ _ _} h hmember hcanon hne => by
      obtain ⟨hbefore, hqueue, hmet⟩ := h
      refine (hmerge hbefore hmember (hqueue id (by simp) hmember) hcanon hne).imp
        fun r later hend => ?_
      obtain ⟨hok, hexchanged, hlater⟩ := hend
      exact ⟨hok, hexchanged, hlater, hqueue.merge hexchanged _,
        hmet.merge (hkept hbefore) hmember hexchanged⟩)
    ⟨h, mergeable_candidates g _, .of_members g⟩
  exact ⟨count, hok, hcount, hlater, hmet.distinct⟩

/-- Where there is nothing to merge nothing is merged. -/
theorem run_rests (hkept : g.Kept) (hdistinct : g.Distinct) :
    run.Ends g fun r g' => r = .ok 0 ∧ g' = g := by
  refine (run_merges (P := fun g' => g' = g) (fun h => h ▸ hkept) ?_ rfl).imp fun r g' hend => ?_
  · rintro _ id canon payload rfl hmember hkind hcanon hne
    exact absurd (hdistinct hcanon hmember hkind) hne
  · obtain ⟨count, rfl, hcount, rfl, -⟩ := hend
    obtain rfl : count = 0 := by omega
    exact ⟨rfl, rfl⟩

end Merging

/-! ## 3. Dead values -/

namespace DeadValues

variable {g : Graph} {id : NodeId} {payload : Payload} {node : Node} {bound removed : Nat}
  {stack rest : List NodeId}

/-- What is used, or no value, is left out. -/
theorem removeAll_of_false (h : removable g id = false) :
    removeAll bound (id :: rest) removed g = removeAll bound rest removed g := by
  rw [removeAll]
  simp [h]

/-- A value nobody uses is deleted, and what it read goes on the stack if that was the last use. -/
theorem removeAll_succ (h : removable g id = true) :
    removeAll (bound + 1) (id :: rest) removed g = (do
      Graph.delete id
      let later ← Run.state
      let freed := ((g.inputs id).filterMap fun input => input).filter (removable later)
      removeAll bound (freed.reverse ++ rest) (removed + 1) : Edit Nat) g := by
  rw [removeAll]
  simp [h]

/-- What can be removed is a value that is a member and has no usages. -/
theorem node?_of_removable (h : removable g id = true) :
    ∃ node, g.node? id = some node ∧ node.state = .active ∧ node.usages = [] ∧
      node.payload.kind.isA .value = true := by
  simp only [removable, Bool.and_eq_true, Bool.not_eq_true'] at h
  obtain ⟨⟨⟨hactive, hdependency⟩, heffect⟩, husages⟩ := h
  obtain ⟨payload, hmember⟩ := Graph.isActive_iff.mp hactive
  obtain ⟨node, hnode, hstate, rfl⟩ := Graph.member?_eq_some_iff.mp hmember
  simp only [Graph.isA, Graph.kind?_of_member? hmember] at hdependency heffect
  simp only [Graph.usages, hnode, List.isEmpty_iff] at husages
  refine ⟨node, hnode, hstate, husages, ?_⟩
  revert hdependency heffect
  cases node.payload.kind <;> decide

/-- In particular it is a member. -/
theorem member?_of_removable (h : removable g id = true) :
    ∃ payload, g.member? id = some payload := by
  obtain ⟨node, hnode, hstate, -⟩ := node?_of_removable h
  exact ⟨_, Graph.member?_eq_some_iff.mpr ⟨node, hnode, hstate, rfl⟩⟩

/-- Of a member it is asked whether it is a value and has no usages. -/
theorem removable_iff (hmember : g.member? id = some payload) :
    removable g id = true ↔ payload.kind.isA .value = true ∧ g.usages id = [] := by
  have hvalue : (payload.kind.isA .dependency && !payload.kind.isA .sideEffect)
      = payload.kind.isA .value := by
    cases payload.kind <;> rfl
  have hactive : g.isActive id = true := Graph.isActive_iff.mpr ⟨payload, hmember⟩
  simp only [removable, hactive, Graph.isA, Graph.kind?_of_member? hmember, Bool.true_and, hvalue,
    Bool.and_eq_true, List.isEmpty_iff]

/-- The inputs of a node that can be removed once the node is gone. -/
def freed (g : Graph) (id : NodeId) (later : Graph) : List NodeId :=
  ((g.inputs id).filterMap fun input => input).filter (removable later)

/-- **What working off the stack comes to without a bound**, if it comes to an end at all. -/
inductive ComesTo : List NodeId → Nat → Graph → Outcome Fault Graph Nat → Prop where
  | done {removed : Nat} {g : Graph} : ComesTo [] removed g ⟨.ok removed, g, []⟩
  | passed {id : NodeId} {rest : List NodeId} {removed : Nat} {g : Graph}
    {outcome : Outcome Fault Graph Nat} (h : removable g id = false)
    (hrest : ComesTo rest removed g outcome) : ComesTo (id :: rest) removed g outcome
  | refused {id : NodeId} {rest : List NodeId} {removed : Nat} {g g' : Graph} {fault : Fault}
    {reports : List Report} (h : removable g id = true)
    (hdelete : Graph.delete id g = ⟨.error fault, g', reports⟩) :
    ComesTo (id :: rest) removed g ⟨.error fault, g', reports⟩
  | removed {id : NodeId} {rest : List NodeId} {removed : Nat} {g g' : Graph}
    {outcome : Outcome Fault Graph Nat} {reports : List Report} (h : removable g id = true)
    (hdelete : Graph.delete id g = ⟨.ok (), g', reports⟩)
    (hrest : ComesTo ((freed g id g').reverse ++ rest) (removed + 1) g' outcome) :
    ComesTo (id :: rest) removed g (outcome.after reports)

/-- Deleting what can be removed withdraws it. -/
theorem delete_of_node? (hnode : g.node? id = some node) (hstate : node.state = .active)
    (hnil : node.usages = []) :
    Graph.delete id g = ⟨.ok (), g.withdraw id node.payload, (Graph.delete id g).reports⟩ := by
  obtain ⟨hresult, hlater⟩ := Graph.delete_eq_withdraw hnode hstate hnil
  rw [← hresult, ← hlater]

/-- **The stack is worked off before the bound is met**: a turn deletes a member or makes the stack
shorter. -/
theorem comesTo_removeAll {bound : Nat} {stack : List NodeId} {removed : Nat} {g : Graph}
    (hbound : g.members.length ≤ bound) :
    ComesTo stack removed g (removeAll bound stack removed g) := by
  cases stack with
  | nil =>
    rw [removeAll]
    exact .done
  | cons id rest =>
    cases hremovable : removable g id with
    | false =>
      rw [removeAll_of_false hremovable]
      exact .passed hremovable (comesTo_removeAll hbound)
    | true =>
      obtain ⟨node, hnode, hstate, hnil, -⟩ := node?_of_removable hremovable
      have hmember : g.member? id = some node.payload :=
        Graph.member?_eq_some_iff.mpr ⟨node, hnode, hstate, rfl⟩
      cases bound with
      | zero => exact absurd (Graph.length_members_pos hmember) (by omega)
      | succ bound =>
        have hless := Graph.length_members_withdraw hmember node.payload
        have hdelete := delete_of_node? hnode hstate hnil
        rw [removeAll_succ hremovable, Run.bind_ok hdelete]
        exact .removed hremovable hdelete (comesTo_removeAll (by omega))
termination_by (bound, stack.length)

/-- A run works off the values nobody uses in the beginning, the last of them first. -/
theorem comesTo_run (g : Graph) : ComesTo (g.members.filter (removable g)).reverse 0 g (run g) :=
  comesTo_removeAll g.length_members_le

/-- **What every step keeps, working off the stack keeps**: who is used is left out, and who is not
is deleted.  The number of deletions is that of the members that are gone. -/
theorem ComesTo.keeps {P : List NodeId → Graph → Prop}
    (hskip : ∀ {id rest g}, P (id :: rest) g → removable g id = false → P rest g)
    (hremove : ∀ {id rest g node}, P (id :: rest) g → g.node? id = some node →
      node.state = .active →
      node.usages = [] → node.payload.kind.isA .value = true →
        P ((freed g id (g.withdraw id node.payload)).reverse ++ rest) (g.withdraw id node.payload))
    {outcome : Outcome Fault Graph Nat} (hends : ComesTo stack removed g outcome) (h : P stack g) :
    ∃ count, outcome.result = .ok count ∧
      outcome.state.members.length + count = g.members.length + removed ∧ P [] outcome.state := by
  induction hends with
  | done => exact ⟨_, rfl, rfl, h⟩
  | passed hused _ ih => exact ih (hskip h hused)
  | refused hremovable hdelete =>
    obtain ⟨node, hnode, hstate, hnil, -⟩ := node?_of_removable hremovable
    rw [delete_of_node? hnode hstate hnil] at hdelete
    exact absurd (congrArg Outcome.result hdelete) (by simp)
  | removed hremovable hdelete _ ih =>
    obtain ⟨node, hnode, hstate, hnil, hvalue⟩ := node?_of_removable hremovable
    rw [delete_of_node? hnode hstate hnil] at hdelete
    obtain ⟨-, rfl, -⟩ := Outcome.mk.inj hdelete
    have hless := Graph.length_members_withdraw
      (Graph.member?_eq_some_iff.mpr ⟨node, hnode, hstate, rfl⟩) node.payload
    obtain ⟨count, hok, hcount, hdone⟩ := ih (hremove h hnode hstate hnil hvalue)
    exact ⟨count, hok, by simp only [Outcome.after] at hless ⊢; omega, hdone⟩

/-- Only what the deleted value reads loses users. -/
theorem usages_withdraw {other : NodeId} (hother : other ∉ payload.edges) :
    (g.withdraw id payload).usages other = g.usages other := by
  rw [Graph.usages, Graph.usages, Graph.node?_withdraw, List.count_eq_zero.mpr hother]
  cases g.node? other with
  | none => rfl
  | some node =>
    simp only [Option.map_some, Function.iterate_zero, id_eq]
    split <;> rfl

/-- **What can be removed is on the stack.** -/
def Stacked (stack : List NodeId) (g : Graph) : Prop := ∀ id, removable g id = true → id ∈ stack

namespace Stacked

/-- In the beginning all that can be removed is on the stack. -/
theorem of_members (g : Graph) : Stacked (g.members.filter (removable g)).reverse g := by
  intro id hdead
  exact List.mem_reverse.mpr
    (List.mem_filter.mpr ⟨Graph.mem_members_iff.mpr (member?_of_removable hdead), hdead⟩)

/-- What cannot be removed need not be on it. -/
theorem skip (h : Stacked (id :: rest) g) (hused : removable g id = false) : Stacked rest g := by
  intro other hother
  refine (List.mem_cons.mp (h _ hother)).resolve_left ?_
  rintro rfl
  exact absurd (hused.symm.trans hother) (by simp)

/-- A value is deleted.  What nobody but it used is put on the stack. -/
theorem remove (h : Stacked (id :: rest) g) (hnode : g.node? id = some node)
    (hstate : node.state = .active) (hvalue : node.payload.kind.isA .value = true) :
    Stacked ((freed g id (g.withdraw id node.payload)).reverse ++ rest)
      (g.withdraw id node.payload) := by
  intro other hother
  obtain ⟨payload, hmember⟩ := member?_of_removable hother
  obtain ⟨hbefore, hne⟩ := Graph.member?_of_withdraw hmember
  obtain ⟨hkind, husages⟩ := (removable_iff hmember).mp hother
  -- What can be removed afterwards lost its last user just now, or could be removed before.
  by_cases hreads : other ∈ node.payload.edges
  · refine List.mem_append_left _ (List.mem_reverse.mpr (List.mem_filter.mpr ⟨?_, hother⟩))
    have hmember : g.member? id = some node.payload :=
      Graph.member?_eq_some_iff.mpr ⟨node, hnode, hstate, rfl⟩
    rw [Payload.edges_of_isValue hvalue] at hreads
    refine List.mem_filterMap.mpr ⟨some other, ?_, rfl⟩
    rw [Graph.inputs, Graph.payload?_of_member? hmember]
    exact Payload.mem_inputs_iff.mpr hreads
  · rw [usages_withdraw hreads] at husages
    have hdead := h _ ((removable_iff hbefore).mpr ⟨hkind, husages⟩)
    exact List.mem_append_right _ ((List.mem_cons.mp hdead).resolve_left hne)

/-- In the end every value is used. -/
theorem used (h : Stacked [] g) : g.Used := by
  intro id payload hmember hvalue hunused
  exact absurd (h _ ((removable_iff hmember).mpr ⟨hvalue, hunused⟩)) (by simp)

end Stacked

/-- **What every deletion keeps a run keeps**, and it leaves nothing to remove. -/
theorem run_removes {P : Graph → Prop}
    (hremove : ∀ {g id node}, P g → g.node? id = some node → node.state = .active →
      node.usages = [] →
      node.payload.kind.isA .value = true → P (g.withdraw id node.payload)) (h : P g) :
    run.Ends g fun r g' => ∃ count, r = .ok count ∧ g'.size + count = g.size ∧ P g' ∧ g'.Used := by
  obtain ⟨count, hok, hcount, hlater, hstacked⟩ := (comesTo_run g).keeps
    (P := fun stack g => P g ∧ Stacked stack g)
    (fun h hused => ⟨h.1, h.2.skip hused⟩)
    (fun h hnode hstate hnil hvalue => ⟨hremove h.1 hnode hstate hnil hvalue,
      h.2.remove hnode hstate hvalue⟩)
    ⟨h, .of_members g⟩
  exact ⟨count, hok, hcount, hlater, hstacked.used⟩

/-- Where nothing can be removed nothing is removed. -/
theorem run_rests (hused : g.Used) : run.Ends g fun r g' => r = .ok 0 ∧ g' = g := by
  refine (run_removes (P := fun g' => g' = g) ?_ rfl).imp fun r g' hend => ?_
  · rintro _ id node rfl hnode hstate hnil hvalue
    refine absurd ?_ (hused (Graph.member?_eq_some_iff.mpr ⟨node, hnode, hstate, rfl⟩) hvalue)
    rw [Graph.usages, hnode]
    exact hnil
  · obtain ⟨count, rfl, hcount, rfl, -⟩ := hend
    obtain rfl : count = 0 := by omega
    exact ⟨rfl, rfl⟩

end DeadValues

end BehaviorGraph
