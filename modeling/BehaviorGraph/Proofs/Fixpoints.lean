/-
# Rule sets run to a fixpoint

A rule set sweeps over the members until a sweep changes nothing.  `Rule.ComesTo` is that without a
limit on the sweeps, turn by turn, with the answers that were given.  It is what a run with a limit
does that is not cut off (`Rule.sweeps_comesTo`), whatever the rules are.

Rules that only look (`Rule.Looks`) change the graph through their answers alone, and an answer
that is carried out either takes a member away or leaves the graph as it is (`Rule.turn_cases`).
So every sweep but the last takes a member away, and **as many sweeps as there are members, and one
more, are enough** (`Rule.sweeps_ne_none`).  In the last sweep every member was asked in the graph
that is left (`Rule.ComesTo.rests`).

A scripted rule that answers with an action that is at hand, or with an input of the node, only
looks (`looks_scriptedRule`).
-/
import BehaviorGraph.Proofs.Visiting
import BehaviorGraph.Proofs.Worklists
import BehaviorGraph.Traversal.Script

namespace BehaviorGraph

variable {g g' : Graph} {id : NodeId} {payload : Payload} {action : Action}

/-! ## 1. Runs without a limit -/

namespace Rule

variable {rules : List Rule} {ids : List NodeId} {before changes limit count : Nat} {changed : Bool}
  {answers : List (NodeId × Action)} {result : Except Abort Nat}

/-- **What a run of a rule set comes to without a limit**, if it comes to an end at all, when `ids`
are still to be asked in the sweep, there were `before` changes when it began and there are
`changes` by now; and the answers that are given on the way. -/
inductive ComesTo (rules : List Rule) : List NodeId → Nat → Nat → Graph → List (NodeId × Action) →
    Except Abort Nat → Graph → Prop where
  /-- A sweep without a change is the last one. -/
  | settled {changes : Nat} {g : Graph} : ComesTo rules [] changes changes g [] (.ok changes) g
  /-- After a sweep with a change there is another one. -/
  | again {before changes : Nat} {g g' : Graph} {answers : List (NodeId × Action)}
    {result : Except Abort Nat} (hchanged : changes ≠ before)
    (hlater : ComesTo rules g.members changes changes g answers result g') :
    ComesTo rules [] before changes g answers result g'
  /-- Who is no member any more is left out. -/
  | passed {id : NodeId} {rest : List NodeId} {before changes : Nat} {g g' : Graph}
    {answers : List (NodeId × Action)} {result : Except Abort Nat} (hactive : g.isActive id = false)
    (hrest : ComesTo rules rest before changes g answers result g') :
    ComesTo rules (id :: rest) before changes g answers result g'
  /-- A rule fails. -/
  | failed {id : NodeId} {rest : List NodeId} {before changes : Nat} {g : Graph} {abort : Abort}
    (hactive : g.isActive id = true) (hvisit : (visit rules id g).result = .error abort) :
    ComesTo rules (id :: rest) before changes g [] (.error abort) (visit rules id g).state
  /-- A rule ends the run. -/
  | stopped {id : NodeId} {rest : List NodeId} {before changes : Nat} {g : Graph}
    (hactive : g.isActive id = true) (hvisit : (visit rules id g).result = .ok .stop) :
    ComesTo rules (id :: rest) before changes g [(id, .stop)] (.ok changes) (visit rules id g).state
  /-- An answer cannot be carried out. -/
  | refused {id : NodeId} {rest : List NodeId} {before changes : Nat} {g : Graph} {action : Action}
    {abort : Abort} (hactive : g.isActive id = true)
      (hvisit : (visit rules id g).result = .ok action)
    (hgo : action ≠ .stop)
    (hcarried : (carryOut action id (visit rules id g).state).result = .error abort) :
    ComesTo rules (id :: rest) before changes g [(id, action)] (.error abort)
      (carryOut action id (visit rules id g).state).state
  /-- An answer is carried out, and the rest have their turn. -/
  | turned {id : NodeId} {rest : List NodeId} {before changes : Nat} {g g' : Graph}
    {action : Action}
    {changed : Bool} {answers : List (NodeId × Action)} {result : Except Abort Nat}
    (hactive : g.isActive id = true) (hvisit : (visit rules id g).result = .ok action)
    (hgo : action ≠ .stop)
    (hcarried : (carryOut action id (visit rules id g).state).result = .ok changed)
    (hrest : ComesTo rules rest before (if changed then changes + 1 else changes)
      (carryOut action id (visit rules id g).state).state answers result g') :
    ComesTo rules (id :: rest) before changes g ((id, action) :: answers) result g'

/-- What a run comes to after a sweep that ended in one way or another. -/
def ComesToAfter (rules : List Rule) (before : Nat) :
    Except Abort Sweep → Graph → Except Abort Nat → Graph → Prop
  | .error abort, g, result, g' => result = .error abort ∧ g' = g
  | .ok ⟨true, changes⟩, g, result, g' => result = .ok changes ∧ g' = g
  | .ok ⟨false, changes⟩, g, result, g' =>
    ∃ answers, ComesTo rules [] before changes g answers result g'

/-- Who is no member is not asked. -/
theorem ends_sweep_skip {rest : List NodeId} (hactive : g.isActive id = false)
    (Q : Except Abort Sweep → Graph → Prop) :
    (sweep rules changes (id :: rest)).Ends g Q ↔ (sweep rules changes rest).Ends g Q := by
  rw [sweep, Run.ends_bind, Run.ends_state]
  simp only [hactive, Bool.not_false, if_true]

/-- **A member is asked, and unless that ends the sweep the answer is carried out before the next
one has its turn.** -/
theorem ends_sweep_cons {rest : List NodeId} (hactive : g.isActive id = true)
    (Q : Except Abort Sweep → Graph → Prop) :
    (sweep rules changes (id :: rest)).Ends g Q ↔ (visit rules id).Ends g fun
      | .error abort, between => Q (.error abort) between
      | .ok action, between => if action = .stop then Q (.ok ⟨true, changes⟩) between else
        (carryOut action id).Ends between fun
          | .error abort, later => Q (.error abort) later
          | .ok changed, later =>
            (sweep rules (if changed then changes + 1 else changes) rest).Ends later Q := by
  rw [sweep, Run.ends_bind, Run.ends_state]
  simp only [hactive, Bool.not_true, Bool.false_eq_true, if_false]
  rw [Run.ends_bind]
  refine Run.ends_congr fun r between => ?_
  cases r with
  | error abort => exact Iff.rfl
  | ok action =>
    by_cases hstop : action = .stop
    · simp only [if_pos hstop]
      exact Run.ends_pure _ _
    · simp only [if_neg hstop]
      rw [Run.ends_bind]
      refine Run.ends_congr fun r later => ?_
      cases r <;> exact Iff.rfl

/-- **A sweep leads to where its turns lead.** -/
theorem sweep_comesTo (rules : List Rule) (before changes : Nat) (ids : List NodeId) (g : Graph) :
    (sweep rules changes ids).Ends g fun r s => ∀ result g',
      ComesToAfter rules before r s result g' →
      ∃ answers, ComesTo rules ids before changes g answers result g' := by
  induction ids generalizing changes g with
  | nil =>
    rw [sweep, Run.ends_pure]
    exact fun result g' hafter => hafter
  | cons id rest ih =>
    cases hactive : g.isActive id with
    | false =>
      rw [ends_sweep_skip hactive]
      refine (ih changes g).imp ?_
      intro r s hrest result g' hafter
      obtain ⟨answers, hcomes⟩ := hrest result g' hafter
      exact ⟨answers, .passed hactive hcomes⟩
    | true =>
      rw [ends_sweep_cons hactive]
      unfold Run.Ends
      cases hvisit : (visit rules id g).result with
      | error abort =>
        rintro result g' ⟨rfl, rfl⟩
        exact ⟨_, .failed hactive hvisit⟩
      | ok action =>
        by_cases hstop : action = .stop
        · subst hstop
          rintro result g' ⟨rfl, rfl⟩
          exact ⟨_, .stopped hactive hvisit⟩
        · simp only [if_neg hstop]
          cases hcarried : (carryOut action id (visit rules id g).state).result with
          | error abort =>
            rintro result g' ⟨rfl, rfl⟩
            exact ⟨_, .refused hactive hvisit hstop hcarried⟩
          | ok changed =>
            intro result g' hafter
            obtain ⟨answers, hcomes⟩ := ih _ _ result g' hafter
            exact ⟨_, .turned hactive hvisit hstop hcarried hcomes⟩

/-- A sweep that came to its end without a change ends the run, and so does a rule that says so;
after any other one the run goes on, if there is another sweep to be had. -/
theorem ends_sweeps_succ (Q : Except Abort (Option Nat) → Graph → Prop) :
    (sweeps rules (limit + 1) changes).Ends g Q ↔ (sweep rules changes g.members).Ends g fun
      | .error abort, later => Q (.error abort) later
      | .ok result, later =>
        if result.stopped = true ∨ result.changes = changes then Q (.ok (some result.changes)) later
        else (sweeps rules limit result.changes).Ends later Q := by
  rw [sweeps, Run.ends_bind, Run.ends_state]
  simp only
  rw [Run.ends_bind]
  refine Run.ends_congr fun r later => ?_
  rcases r with abort | ⟨_ | _, found⟩
  · exact Iff.rfl
  · by_cases hsame : found = changes
    · subst hsame
      simp [Run.ends_pure]
    · simp [hsame]
  · simp only [if_true, true_or]
    rw [Run.ends_bind, Run.ends_log]
    exact Run.ends_pure _ _

theorem eq_of_map_some {ε α : Type} {r r' : Except ε α} (h : r.map some = r'.map some) :
    r = r' := by
  cases r <;> cases r' <;> simp_all [Except.map]

/-- **What a run with a limit comes to that is not cut off, it comes to without one.** -/
theorem sweeps_comesTo (rules : List Rule) (limit changes : Nat) (g : Graph) :
    (sweeps rules limit changes).Ends g fun r g' =>
      ∀ result : Except Abort Nat, result.map some = r →
        ∃ answers, ComesTo rules g.members changes changes g answers result g' := by
  induction limit generalizing changes g with
  | zero =>
    rw [sweeps, Run.ends_pure]
    intro result hcut
    cases result <;> simp [Except.map] at hcut
  | succ limit ih =>
    rw [ends_sweeps_succ]
    refine (sweep_comesTo rules changes changes g.members g).imp fun r s hsweep => ?_
    rcases r with abort | ⟨_ | _, later⟩
    · intro result hresult
      exact hsweep _ _ ⟨eq_of_map_some hresult, rfl⟩
    · by_cases hsame : later = changes
      · subst hsame
        simp only [or_true, if_true]
        intro result hresult
        obtain rfl : result = .ok later := eq_of_map_some hresult
        exact hsweep _ _ ⟨[], .settled⟩
      · simp only [Bool.false_eq_true, hsame, or_false, if_false]
        refine (ih later s).imp ?_
        intro r g' hlater result hresult
        obtain ⟨answers, hcomes⟩ := hlater result hresult
        exact hsweep _ _ ⟨answers, .again hsame hcomes⟩
    · simp only [true_or, if_true]
      intro result hresult
      exact hsweep _ _ ⟨eq_of_map_some hresult, rfl⟩

/-- **A run that is not cut off ends in the same way with a higher limit.** -/
theorem sweeps_of_le {limit' : Nat} (hle : limit ≤ limit') :
    (sweeps rules limit changes).Ends g fun r later => r ≠ .ok none →
      (sweeps rules limit' changes).Ends g fun r' later' => r' = r ∧ later' = later := by
  induction limit generalizing limit' changes g with
  | zero =>
    rw [sweeps, Run.ends_pure]
    exact fun hcut => absurd rfl hcut
  | succ limit ih =>
    obtain ⟨limit', rfl⟩ : ∃ n, limit' = n + 1 := ⟨limit' - 1, by omega⟩
    rw [ends_sweeps_succ]
    simp only [ends_sweeps_succ]
    unfold Run.Ends
    cases (sweep rules changes g.members g).result with
    | error abort => exact fun _ => ⟨rfl, rfl⟩
    | ok result =>
      dsimp only
      split
      · exact fun _ => ⟨rfl, rfl⟩
      · exact ih (by omega)

/-! ## 2. Rules that only look -/

/-- An answer that leaves the graph as it is and asks for a change to members at most. -/
def Answers (g : Graph) (r : Except Abort Action) (g' : Graph) : Prop :=
  g' = g ∧ ∃ action, r = .ok action ∧ ∀ new, action = .change new → g.isActive new = true

/-- **A rule that only looks** has an answer for each node it accepts, and leaves changes to it. -/
def Looks (rule : Rule) : Prop :=
  ∀ {g id payload}, g.Reachable → g.member? id = some payload →
    rule.accepts.admits payload.kind = true →
    (rule.apply id).Ends g (Answers g)

/-- **The rules leave a node as it is**: they have nothing to say about it, or would replace it by
itself. -/
def Rests (rules : List Rule) (g : Graph) (id : NodeId) : Prop :=
  (visit rules id g).result = .ok .proceed ∨ (visit rules id g).result = .ok (.change id)

/-- The first answer of rules that only look is one of theirs, or none. -/
theorem firstAnswer_answers (hrules : ∀ rule ∈ rules, rule.Looks) (h : g.Reachable)
    (hmember : g.member? id = some payload) :
      (firstAnswer id payload.kind rules).Ends g (Answers g) := by
  induction rules with
  | nil => exact ⟨rfl, .proceed, rfl, by simp⟩
  | cons rule rest ih =>
    obtain ⟨hrule, hrest⟩ := List.forall_mem_cons.mp hrules
    rw [firstAnswer]
    split
    · rename_i haccepts
      rw [Run.ends_bind]
      refine (hrule h hmember haccepts).imp ?_
      rintro r _ ⟨rfl, action, rfl, hchange⟩
      by_cases hproceed : action = .proceed
      · simp only [if_pos hproceed]
        exact ih hrest
      · simp only [if_neg hproceed]
        exact ⟨rfl, action, rfl, hchange⟩
    · exact ih hrest

theorem visit_answers (hrules : ∀ rule ∈ rules, rule.Looks) (h : g.Reachable)
    (hmember : g.member? id = some payload) : (visit rules id).Ends g (Answers g) := by
  rw [visit, Run.ends_bind, ends_payloadOf hmember]
  exact firstAnswer_answers hrules h hmember

/-- The first answer of rules that never answer with a stop is no stop. -/
theorem visit_ne_stop (hgo : ∀ rule ∈ rules, ∀ id g, (rule.apply id).Ends g fun r _ =>
    r ≠ .ok .stop)
    (id : NodeId) (g : Graph) : (visit rules id).Ends g fun r _ => r ≠ .ok .stop := by
  have hfirst : ∀ kind g, (firstAnswer id kind rules).Ends g fun r _ => r ≠ .ok .stop := by
    intro kind
    induction rules with
    | nil => exact fun g => by simp [firstAnswer, Run.ends_pure]
    | cons rule rest ih =>
      obtain ⟨hrule, hrest⟩ := List.forall_mem_cons.mp hgo
      intro g
      rw [firstAnswer]
      split
      · rw [Run.ends_bind]
        refine (hrule id g).imp fun r between hne => ?_
        cases r with
        | error abort => simp
        | ok action =>
          by_cases hproceed : action = .proceed
          · simp only [if_pos hproceed]
            exact ih hrest between
          · simp only [if_neg hproceed]
            exact hne
      · exact ih hrest g
  rw [visit, Run.ends_bind]
  unfold Run.Ends
  cases (payloadOf id g).result with
  | error abort => simp
  | ok payload => exact hfirst payload.kind _

/-! ## 3. One turn -/

/-- Replacing a member by itself is no change. -/
theorem replace_self (hmember : g.member? id = some payload) :
    (Graph.replace id id).Ends g fun r g' => r = .ok id ∧ g' = g := by
  obtain ⟨hattached, hsame⟩ := Graph.attach_of_isActive (Graph.isActive_iff.mpr ⟨payload, hmember⟩)
  rw [Graph.replace, Run.ends_bind, Run.ends_state]
  simp only
  rw [Run.ends_bind, Run.ends_ofExcept, Graph.requireActive_eq_ok_iff.mpr ⟨payload, hmember⟩]
  simp only
  rw [Run.ends_bind]
  unfold Run.Ends
  rw [hattached, hsame]
  simp only [if_true]
  exact ⟨rfl, rfl⟩

/-- **Replacing a member by a member**, if that succeeds, leaves one member less, unless it is the
same. -/
theorem carryOut_change {new : NodeId} {found : Payload} (h : g.Kept)
    (hmember : g.member? id = some payload)
    (hnew : g.member? new = some found) : (carryOut (.change new) id).Ends g fun r g' =>
      ∀ changed, r = .ok changed →
        (changed = false ∧ new = id ∧ g' = g) ∨ (changed = true ∧ g'.size + 1 = g.size) := by
  rw [carryOut, Run.ends_bind, ends_editing]
  by_cases hne : new = id
  · subst hne
    refine (replace_self hmember).imp ?_
    rintro r _ ⟨rfl, rfl⟩ changed hchanged
    exact Or.inl ⟨by simpa using (Except.ok.inj hchanged).symm, rfl, rfl⟩
  · have hless := @Merging.length_members_replace g id new payload found h hmember hnew hne
    unfold Run.Ends
    cases hresult : (Graph.replace id new g).result with
    | error fault => exact fun _ hchanged => absurd hchanged (by simp)
    | ok answer =>
      obtain rfl : answer = new := by
        rcases h.replace_members hmember hnew hne with
          ⟨-, hfault, -⟩ | ⟨-, _, -, hfault, -⟩ | ⟨-, -, hok, -⟩
        · simp [hresult] at hfault
        · simp [hresult] at hfault
        · exact Except.ok.inj (hresult.symm.trans hok)
      intro changed hchanged
      exact Or.inr ⟨by simpa [hne] using (Except.ok.inj hchanged).symm, hless hresult⟩

/-- Deleting a member, if that succeeds, leaves one member less. -/
theorem carryOut_delete (hmember : g.member? id = some payload) :
    (carryOut .delete id).Ends g fun r g' => ∀ changed, r = .ok changed →
      changed = true ∧ g'.size + 1 = g.size := by
  obtain ⟨node, hnode, hstate, rfl⟩ := Graph.member?_eq_some_iff.mp hmember
  rw [carryOut, Action.perform, Run.ends_bind, Run.ends_state]
  simp only [hnode, Node.isDeleted, hstate, reduceCtorEq, decide_false,
    Bool.false_eq_true, if_false]
  rw [Run.ends_bind, ends_editing]
  by_cases hnil : node.usages = []
  · obtain ⟨hresult, hlater⟩ := Graph.delete_eq_withdraw hnode hstate hnil
    unfold Run.Ends
    rw [hresult, hlater]
    intro changed hchanged
    exact ⟨(Except.ok.inj hchanged).symm, Graph.length_members_withdraw hmember node.payload⟩
  · have hused : (Graph.delete id g).result = .error (.hasUsages id node.usages) := by
      simp [Graph.delete, hnode, Node.isDeleted, hstate, hnil]
    unfold Run.Ends
    rw [hused]
    exact fun _ hchanged => absurd hchanged (by simp)

/-- **Carrying out an answer is a move of the graph**, or none. -/
theorem carryOut_reachable (h : g.Reachable) (action : Action) (id : NodeId) :
    (carryOut action id).Ends g fun _ g' => g'.Reachable := by
  cases action with
  | proceed => exact h
  | stop => exact h
  | change new =>
    rw [carryOut, Run.ends_bind, ends_editing]
    have hmoved : (Graph.replace id new g).state.Reachable := h.move (.replace id new)
    unfold Run.Ends
    cases (Graph.replace id new g).result <;> exact hmoved
  | delete =>
    have hmoved : (Graph.delete id g).state.Reachable := h.move (.delete id)
    have hdelete : (editing (Graph.delete id) >>= fun _ => return true).Ends g fun _ g' =>
        g'.Reachable := by
      rw [Run.ends_bind, ends_editing]
      unfold Run.Ends
      cases (Graph.delete id g).result <;> exact hmoved
    rw [carryOut, Action.perform, Run.ends_bind, Run.ends_state]
    cases hnode : g.node? id with
    | none =>
      simp only [hnode]
      exact hdelete
    | some node =>
      by_cases hdeleted : node.isDeleted = true
      · simp only [hnode, if_pos hdeleted]
        exact h
      · simp only [hnode, if_neg hdeleted]
        exact hdelete

/-- **What a turn does**: the rules leave the node as it is and so is the graph, or there is one
member less. -/
theorem turn_cases (hrules : ∀ rule ∈ rules, rule.Looks) (h : g.Reachable)
    (hactive : g.isActive id = true)
    (hvisit : (visit rules id g).result = .ok action) (hgo : action ≠ .stop)
    (hcarried : (carryOut action id (visit rules id g).state).result = .ok changed) :
    (changed = false ∧ Rests rules g id ∧ (carryOut action id (visit rules id g).state).state = g) ∨
      (changed = true ∧ (carryOut action id (visit rules id g).state).state.Reachable ∧
        (carryOut action id (visit rules id g).state).state.size + 1 = g.size) := by
  obtain ⟨payload, hmember⟩ := Graph.isActive_iff.mp hactive
  obtain ⟨hsame, action', haction, hchange⟩ := visit_answers hrules h hmember
  obtain rfl := Except.ok.inj (hvisit.symm.trans haction)
  rw [hsame] at hcarried ⊢
  have hreachable : (carryOut action id g).state.Reachable := carryOut_reachable h action id
  cases action with
  | stop => exact absurd rfl hgo
  | proceed => exact Or.inl ⟨(Except.ok.inj hcarried).symm, Or.inl hvisit, rfl⟩
  | delete =>
    obtain ⟨hchanged, hless⟩ := carryOut_delete hmember changed hcarried
    exact Or.inr ⟨hchanged, hreachable, hless⟩
  | change new =>
    obtain ⟨found, hnew⟩ := Graph.isActive_iff.mp (hchange new rfl)
    rcases carryOut_change h.kept hmember hnew changed hcarried with ⟨hchanged, rfl, hstate⟩
      | ⟨hchanged, hless⟩
    · exact Or.inl ⟨hchanged, Or.inr hvisit, hstate⟩
    · exact Or.inr ⟨hchanged, hreachable, hless⟩

/-! ## 4. Whole runs -/

/-- **The number of changes is that of the members that are gone.** -/
theorem ComesTo.counts (hrules : ∀ rule ∈ rules, rule.Looks)
    (hends : ComesTo rules ids before changes g answers result g') (h : g.Reachable)
    (hresult : result = .ok count) :
    g'.Reachable ∧ changes ≤ count ∧ g'.size + count = g.size + changes := by
  induction hends with
  | settled =>
    obtain rfl := Except.ok.inj hresult
    exact ⟨h, Nat.le_refl _, rfl⟩
  | again _ _ ih => exact ih h hresult
  | passed _ _ ih => exact ih h hresult
  | failed => exact absurd hresult (by simp)
  | @stopped id rest before changes g hactive hvisit =>
    obtain rfl := Except.ok.inj hresult
    obtain ⟨payload, hmember⟩ := Graph.isActive_iff.mp hactive
    obtain ⟨hsame, -⟩ := visit_answers hrules h hmember
    rw [hsame]
    exact ⟨h, Nat.le_refl _, rfl⟩
  | refused => exact absurd hresult (by simp)
  | turned hactive hvisit hgo hcarried _ ih =>
    rcases turn_cases hrules h hactive hvisit hgo hcarried with
      ⟨rfl, -, hstate⟩ | ⟨rfl, hreachable, hless⟩
    · rw [hstate] at ih
      exact ih h hresult
    · obtain ⟨hreachable', hle, hcount⟩ := ih hreachable hresult
      simp only [if_true] at hle hcount
      exact ⟨hreachable', by omega, by omega⟩

/-- **In the end the rules leave every member as it is**, if none of them ended the run.  As long
as there is no change in a sweep, they leave those as they are that had their turn in it. -/
theorem ComesTo.rests (hrules : ∀ rule ∈ rules, rule.Looks)
    (hends : ComesTo rules ids before changes g answers result g') (h : g.Reachable)
    (hle : before ≤ changes)
    (hasked : changes = before → ∀ id, g.isActive id = true → id ∉ ids → Rests rules g id)
    (hresult : result = .ok count) (hnever : ∀ answer ∈ answers, answer.2 ≠ .stop) :
    ∀ id, g'.isActive id = true → Rests rules g' id := by
  induction hends with
  | settled => exact fun id hactive => hasked rfl id hactive (by simp)
  | @again before changes g _ _ _ _ _ ih =>
    refine ih h (Nat.le_refl _) ?_ hresult hnever
    intro _ id hactive hnot
    exact absurd (Graph.mem_members_iff.mpr (Graph.isActive_iff.mp hactive)) hnot
  | passed hactive _ ih =>
    refine ih h hle ?_ hresult hnever
    intro hsame other hother hnot
    refine hasked hsame other hother ?_
    rintro hin
    rcases List.mem_cons.mp hin with rfl | hin
    · rw [hactive] at hother
      exact absurd hother (by simp)
    · exact hnot hin
  | failed => exact absurd hresult (by simp)
  | stopped => exact absurd rfl (hnever _ (List.mem_singleton_self _))
  | refused => exact absurd hresult (by simp)
  | @turned id rest before changes g _ action changed answers _ hactive hvisit hgo hcarried _ ih =>
    have hnever' := (List.forall_mem_cons.mp hnever).2
    rcases turn_cases hrules h hactive hvisit hgo hcarried with
      ⟨rfl, hrests, hstate⟩ | ⟨rfl, hreachable, -⟩
    · rw [hstate] at ih
      refine ih h hle ?_ hresult hnever'
      intro hsame other hother hnot
      by_cases heq : other = id
      · rw [heq]
        exact hrests
      · exact hasked hsame other hother (by simp [heq, hnot])
    · refine ih hreachable (by simp only [if_true]; omega) ?_ hresult hnever'
      intro hsame
      simp only [if_true] at hsame
      omega

/-- **A sweep more than there are members is enough.** -/
theorem sweeps_ne_none (hrules : ∀ rule ∈ rules, rule.Looks) (h : g.Reachable)
    (hlimit : g.size < limit) :
    (sweeps rules limit changes g).result ≠ .ok none := by
  induction limit generalizing changes g with
  | zero => omega
  | succ limit ih =>
    change (sweeps rules (limit + 1) changes).Ends g fun r _ => r ≠ .ok none
    rw [ends_sweeps_succ]
    -- The members of the graph after a sweep are counted as if the run ended there.
    have hsweep := fun last => sweep_comesTo rules last changes g.members g
    unfold Run.Ends at hsweep ⊢
    revert hsweep
    generalize (sweep rules changes g.members g).state = s
    rcases (sweep rules changes g.members g).result with abort | ⟨stopped, last⟩
    · intro _ hcut
      exact absurd hcut (by simp)
    · intro hsweep
      dsimp only
      split
      · simp
      · rename_i hgo
        obtain ⟨rfl, hchanged⟩ : stopped = false ∧ last ≠ changes := by simpa using hgo
        obtain ⟨answers, hends⟩ := hsweep last (.ok last) s ⟨[], .settled⟩
        obtain ⟨hreachable, hle, hcount⟩ := hends.counts hrules h rfl
        exact ih hreachable (by omega)

/-- Rules none of which ever answers with a stop do not stop a run. -/
theorem ComesTo.ne_stop (hends : ComesTo rules ids before changes g answers result g')
    (hgo : ∀ rule ∈ rules, ∀ id g, (rule.apply id).Ends g fun r _ => r ≠ .ok .stop) :
    ∀ answer ∈ answers, answer.2 ≠ .stop := by
  induction hends with
  | settled => simp
  | again _ _ ih => exact ih
  | passed _ _ ih => exact ih
  | failed => simp
  | stopped _ hvisit => exact absurd hvisit (visit_ne_stop hgo _ _)
  | refused _ _ hne => simpa using hne
  | turned _ _ hne _ _ ih => exact List.forall_mem_cons.mpr ⟨hne, ih⟩

end Rule

/-! ## 5. Scripted rules -/

/-- A condition on a member holds or does not; finding that out changes nothing. -/
theorem holds_ends (condition : Condition) (h : g.Kept) (hmember : g.member? id = some payload) :
    (condition.holds id).Ends g fun r g' => g' = g ∧ ∃ holds, r = .ok holds := by
  rw [Condition.holds, Run.ends_bind, ends_payloadOf hmember]
  simp only
  split
  · cases condition.zero with
    | none => exact ⟨rfl, _, rfl⟩
    | some position =>
      simp only [readsZero]
      cases hinput : payload.inputs[position]? with
      | none => exact ⟨rfl, _, rfl⟩
      | some input =>
        cases input with
        | none => exact ⟨rfl, _, rfl⟩
        | some target =>
          obtain ⟨found, hfound⟩ := h.member?_of_mem_inputEdges hmember
            (Payload.mem_inputs_iff.mp (List.mem_of_getElem? hinput))
          simp only
          rw [Run.ends_bind, ends_payloadOf hfound]
          cases found <;> exact ⟨rfl, _, rfl⟩
  · exact ⟨rfl, _, rfl⟩

/-- An action that is at hand, or to replace the node by one of its inputs. -/
def ScriptedAction.Looks : ScriptedAction → Prop
  | plain action => ∀ new, action ≠ .change new
  | input _ => True
  | _ => False

/-- **A scripted rule only looks** if its action does. -/
theorem looks_scriptedRule {action : ScriptedAction} (name : String) (accepts : Filter)
    (condition : Condition) (haction : action.Looks) :
    (scriptedRule name accepts condition action).Looks := by
  intro g id payload h hmember _
  simp only [scriptedRule]
  rw [Run.ends_bind]
  refine (holds_ends condition h.kept hmember).imp ?_
  rintro _ _ ⟨rfl, holds, rfl⟩
  cases holds with
  | false => exact ⟨rfl, .proceed, rfl, by simp⟩
  | true =>
    simp only [if_true]
    rw [ScriptedAction.work, Run.ends_bind, Run.ends_state]
    cases action with
    | plain action => exact ⟨rfl, action, rfl, fun new hnew => absurd hnew (haction new)⟩
    | input position =>
      simp only
      rw [Run.ends_bind, ends_payloadOf hmember]
      simp only
      cases hinput : payload.inputs[position]? with
      | none => exact ⟨rfl, .proceed, rfl, by simp⟩
      | some input =>
        cases input with
        | none => exact ⟨rfl, .proceed, rfl, by simp⟩
        | some target =>
          refine ⟨rfl, .change target, rfl, fun new hnew => ?_⟩
          obtain rfl := Action.change.inj hnew
          exact Graph.isActive_iff.mpr (h.kept.member?_of_mem_inputEdges hmember
            (Payload.mem_inputs_iff.mp (List.mem_of_getElem? hinput)))
    | _ => exact False.elim haction

/-- A scripted rule ends a run only if that is its action. -/
theorem scriptedRule_ne_stop {action : ScriptedAction} (name : String) (accepts : Filter)
    (condition : Condition) (haction : action.Looks) (hgo : action ≠ .plain .stop)
    (id : NodeId) (g : Graph) :
    ((scriptedRule name accepts condition action).apply id).Ends g fun r _ => r ≠ .ok .stop := by
  have hwork : ∀ g, (action.work id).Ends g fun r _ => r ≠ .ok .stop := by
    intro g
    rw [ScriptedAction.work, Run.ends_bind, Run.ends_state]
    cases action with
    | plain action => exact fun hstop => hgo (congrArg _ (Except.ok.inj hstop))
    | input position =>
      simp only
      rw [Run.ends_bind]
      unfold Run.Ends
      cases (payloadOf id g).result with
      | error abort => simp
      | ok payload =>
        dsimp only
        rcases payload.inputs[position]? with _ | _ | target <;>
          exact fun hstop => Action.noConfusion (Except.ok.inj hstop)
    | _ => exact False.elim haction
  simp only [scriptedRule]
  rw [Run.ends_bind]
  unfold Run.Ends
  cases (condition.holds id g).result with
  | error abort => simp
  | ok holds =>
    cases holds with
    | false => exact fun hstop => Action.noConfusion (Except.ok.inj hstop)
    | true => exact hwork _

/-! ## 6. The fixpoint -/

namespace Graph

/-- **Rules that only look run to a fixpoint.**  A run without a limit comes to an end, and one
with a limit above the number of members comes to the same.  If it succeeds, the number of changes
is that of the members that are gone; and if moreover no rule ended it, the rules leave every
member there is in the end as it is. -/
theorem Reachable.rules_settle {rules : List Rule} (h : g.Reachable)
    (hrules : ∀ rule ∈ rules, rule.Looks) :
    ∃ answers result g', Rule.ComesTo rules g.members 0 0 g answers result g' ∧
      (∀ limit, g.size < limit →
        (Rule.run rules limit).Ends g fun r later => r = result.map some ∧ later = g') ∧
      ∀ count, result = .ok count → g.size = g'.size + count ∧
        ((∀ answer ∈ answers, answer.2 ≠ .stop) → ∀ id, g'.isActive id = true →
          Rule.Rests rules g' id) := by
  have hlast : (Rule.run rules (g.size + 1) g).result ≠ .ok none :=
    Rule.sweeps_ne_none hrules h (Nat.lt_succ_self _)
  obtain ⟨result, hresult⟩ : ∃ result : Except Abort Nat,
      result.map some = (Rule.run rules (g.size + 1) g).result := by
    rcases hrun : (Rule.run rules (g.size + 1) g).result with abort | _ | count
    · exact ⟨.error abort, rfl⟩
    · exact absurd hrun hlast
    · exact ⟨.ok count, rfl⟩
  obtain ⟨answers, hends⟩ := Rule.sweeps_comesTo rules (g.size + 1) 0 g result hresult
  refine ⟨answers, result, _, hends, ?_, ?_⟩
  · intro limit hlimit
    rw [hresult]
    exact Rule.sweeps_of_le hlimit hlast
  · intro count hcount
    obtain ⟨-, -, hsize⟩ := hends.counts hrules h hcount
    refine ⟨hsize.symm, fun hnever => hends.rests hrules h (Nat.le_refl _) ?_ hcount hnever⟩
    intro _ id hactive hnot
    exact absurd (mem_members_iff.mpr (isActive_iff.mp hactive)) hnot

/-- Sums with a zero, one of which is found to be one only after another is gone, one that reads
itself, and a read of a temporary register. -/
def sums : Graph :=
  ([.add (.readReg "X" (.uint 8)), .add (.const (.ofInt 0 (.uint 8))),
    .add (.builtInCall [⟨0⟩, ⟨0⟩] .add (.uint 8)), .add (.builtInCall [⟨1⟩, ⟨1⟩] .add (.uint 8)),
    .redirectInputs ⟨2⟩ (fun place old => if place = 1 then some ⟨3⟩ else old), .add (.ret ⟨2⟩),
    .add (.readReg "TMP" (.uint 8)), .add (.builtInCall [⟨0⟩, ⟨1⟩] .add (.uint 8)),
    .redirectInputs ⟨6⟩ (fun place old => if place = 0 then some ⟨6⟩ else old)] : List Move).foldl
      (fun g move => move.after g) (empty "f")

/-- Rules that add no zeros and read no temporary register. -/
def tidying : List Rule :=
  [scriptedRule "add-zero" (.exactly .builtInCall) { op := some "add", zero := some 1 } (.input 0),
    scriptedRule "drop-tmp" (.exactly .readReg) { reg := some "TMP" } (.plain .delete)]

/-- Two sums and the read are given up, the second sum in a second sweep; for the one that reads
itself the rules answer with itself, and it stays. -/
theorem rules_settle_sums : sums.Reachable ∧ (∀ rule ∈ tidying, rule.Looks) ∧ ∃ g' : Graph,
    (Rule.run tidying 8).Ends sums (fun r later => r = .ok (some 3) ∧ later = g') ∧
      sums.size = g'.size + 3 ∧
      (∀ id, g'.isActive id = true → Rule.Rests tidying g' id) := by
  have hreachable : sums.Reachable := reachable_foldl "f" _
  have hinput : (ScriptedAction.input 0).Looks := trivial
  have hdelete : (ScriptedAction.plain .delete).Looks := fun new => by simp
  have hlooks : ∀ rule ∈ tidying, rule.Looks := by
    simp only [tidying, List.forall_mem_cons, List.not_mem_nil, false_implies,
      implies_true, and_true]
    exact ⟨looks_scriptedRule _ _ _ hinput, looks_scriptedRule _ _ _ hdelete⟩
  have hgo : ∀ rule ∈ tidying, ∀ id g, (rule.apply id).Ends g fun r _ => r ≠ .ok .stop := by
    simp only [tidying, List.forall_mem_cons, List.not_mem_nil, false_implies,
      implies_true, and_true]
    exact ⟨scriptedRule_ne_stop _ _ _ hinput (by simp),
      scriptedRule_ne_stop _ _ _ hdelete (by simp)⟩
  obtain ⟨answers, result, g', hends, hruns, hsettles⟩ := hreachable.rules_settle hlooks
  have hrun : (Rule.run tidying 8 sums).result = .ok (some 3) := by cbv
  have hrun' := hruns 8 (by cbv)
  obtain rfl : result = .ok 3 := Rule.eq_of_map_some (hrun'.1.symm.trans hrun)
  obtain ⟨hsize, hrests⟩ := hsettles 3 rfl
  exact ⟨hreachable, hlooks, g', hrun', hsize, hrests (hends.ne_stop hgo)⟩

end Graph

end BehaviorGraph
