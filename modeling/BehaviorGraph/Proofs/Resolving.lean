/-
# Whom a call names

Names of definitions need not be distinct, and two rules say whom a call names.  Verification and
inlining look through the other definitions and take **the first other definition of the name**
(`otherPlace?`); what they look at of the others is that definition and nothing else.  The schedule
takes **the last definition of the name**, the caller included (`lastPlace?`).

The two agree for a call exactly if one other definition has the name, and the caller, if it has it
as well, stands in front of it (`Unambiguous`, `lastPlace?_eq_otherPlace?_iff`).  So the schedule
puts a callee in front of its caller by the second rule only; where every call is unambiguous it
does so by the first, and reports recursion exactly where the first rule leads in a circle.  On a
tour of the inlining pass **an unambiguous call finds its callee as the visit of the callee has
left it** (`calls_find_first_schedule_last`).
-/
import BehaviorGraph.Proofs.Inlining
import BehaviorGraph.Proofs.Tours
import BehaviorGraph.Pass.Verification

namespace BehaviorGraph

variable {definitions definitions' : List Definition} {name : String} {caller callee place : Nat}

/-! ## 1. Two ways to look a name up -/

/-- The place has a definition of the name. -/
def NamedAt (definitions : List Definition) (name : String) (place : Nat) : Prop :=
  ∃ d, definitions[place]? = some d ∧ d.name = name

/-- The place of the first definition of a name, other than the caller's. -/
def otherPlace? (definitions : List Definition) (caller : Nat) (name : String) : Option Nat :=
  (definitions.zipIdx.find? fun entry => decide (entry.1.name = name ∧ entry.2 ≠ caller)).map
    Prod.snd

/-- Places are listed in their order. -/
theorem pairwise_zipIdx (definitions : List Definition) :
    definitions.zipIdx.Pairwise fun entry entry' => entry.2 < entry'.2 := by
  have hplaces : (List.range' 0 definitions.length).Pairwise (· < ·) := List.pairwise_lt_range'
  rw [← List.zipIdx_map_snd 0 definitions] at hplaces
  exact List.pairwise_map.mp hplaces

/-- What is found in an ordered list comes first. -/
theorem find?_first {α : Type} {R : α → α → Prop} {items : List α} {p : α → Bool} {a b : α}
    (hordered : items.Pairwise R) (hfind : items.find? p = some a) (hb : b ∈ items)
    (hp : p b = true) :
    b = a ∨ R a b := by
  obtain ⟨-, front, behind, rfl, hfront⟩ := List.find?_eq_some_iff_append.mp hfind
  rcases List.mem_append.mp hb with hin | hin
  · exact absurd hp (by simpa using hfront b hin)
  · rcases List.mem_cons.mp hin with rfl | hin
    · exact .inl rfl
    · exact .inr ((List.pairwise_cons.mp (List.pairwise_append.mp hordered).2.1).1 b hin)

theorem mem_zipIdx_of_namedAt (h : NamedAt definitions name place) :
    ∃ d, (d, place) ∈ definitions.zipIdx ∧ d.name = name := by
  obtain ⟨d, hd, hname⟩ := h
  exact ⟨d, List.mem_zipIdx_iff_getElem?.mpr hd, hname⟩

theorem otherPlace?_eq_none_iff : otherPlace? definitions caller name = none ↔
    ∀ place, NamedAt definitions name place → place = caller := by
  rw [otherPlace?, Option.map_eq_none_iff, List.find?_eq_none]
  constructor
  · intro hnone place hnamed
    obtain ⟨d, hin, hname⟩ := mem_zipIdx_of_namedAt hnamed
    have hout := hnone _ hin
    rw [decide_eq_true_iff, not_and, not_not] at hout
    exact hout hname
  · rintro hall ⟨d, place⟩ hin
    rw [decide_eq_true_iff, not_and, not_not]
    exact fun hname => hall place ⟨d, List.mem_zipIdx_iff_getElem?.mp hin, hname⟩

theorem lastPlace?_eq_none_iff :
    lastPlace? definitions name = none ↔ ∀ place, ¬ NamedAt definitions name place := by
  rw [lastPlace?, Option.map_eq_none_iff, List.find?_eq_none]
  constructor
  · intro hnone place hnamed
    obtain ⟨d, hin, hname⟩ := mem_zipIdx_of_namedAt hnamed
    exact hnone _ (List.mem_reverse.mpr hin) (decide_eq_true hname)
  · rintro hall ⟨d, place⟩ hin hname
    exact hall place ⟨d, List.mem_zipIdx_iff_getElem?.mp (List.mem_reverse.mp hin),
      of_decide_eq_true hname⟩

/-- **The first other place of a name.** -/
theorem otherPlace?_eq_some_iff : otherPlace? definitions caller name = some callee ↔
    NamedAt definitions name callee ∧ callee ≠ caller ∧
      ∀ place, NamedAt definitions name place → place ≠ caller → callee ≤ place := by
  have hfound : ∀ {callee}, otherPlace? definitions caller name = some callee →
      NamedAt definitions name callee ∧ callee ≠ caller ∧
        ∀ place, NamedAt definitions name place → place ≠ caller → callee ≤ place := by
    intro callee h
    obtain ⟨⟨d, index⟩, hfind, rfl⟩ := Option.map_eq_some_iff.mp h
    have hfits := List.find?_some hfind
    obtain ⟨hname, hne⟩ := of_decide_eq_true hfits
    refine ⟨⟨d, List.mem_zipIdx_iff_getElem?.mp (List.mem_of_find?_eq_some hfind), hname⟩, hne, ?_⟩
    intro place hnamed hother
    obtain ⟨d', hin, hname'⟩ := mem_zipIdx_of_namedAt hnamed
    rcases find?_first (pairwise_zipIdx definitions) hfind hin
      (decide_eq_true ⟨hname', hother⟩) with heq | hlt
    · exact (congrArg Prod.snd heq).ge
    · exact hlt.le
  refine ⟨hfound, fun ⟨hnamed, hne, hleast⟩ => ?_⟩
  cases hother : otherPlace? definitions caller name with
  | none => exact absurd (otherPlace?_eq_none_iff.mp hother callee hnamed) hne
  | some found =>
    obtain ⟨hnamed', hne', hleast'⟩ := hfound hother
    rw [Nat.le_antisymm (hleast' callee hnamed hne) (hleast found hnamed' hne')]

/-- **The last place of a name.** -/
theorem lastPlace?_eq_some_iff : lastPlace? definitions name = some callee ↔
    NamedAt definitions name callee ∧ ∀ place, NamedAt definitions name place → place ≤ callee := by
  have hfound : ∀ {callee}, lastPlace? definitions name = some callee →
      NamedAt definitions name callee ∧ ∀ place, NamedAt definitions name place →
        place ≤ callee := by
    intro callee h
    refine ⟨name_of_lastPlace? h, fun place hnamed => ?_⟩
    obtain ⟨⟨d, index⟩, hfind, rfl⟩ := Option.map_eq_some_iff.mp h
    obtain ⟨d', hin, hname'⟩ := mem_zipIdx_of_namedAt hnamed
    rcases find?_first (List.pairwise_reverse.mpr (pairwise_zipIdx definitions)) hfind
      (List.mem_reverse.mpr hin) (decide_eq_true hname') with heq | hlt
    · exact (congrArg Prod.snd heq).le
    · exact hlt.le
  refine ⟨hfound, fun ⟨hnamed, hgreatest⟩ => ?_⟩
  cases hlast : lastPlace? definitions name with
  | none => exact absurd hnamed (lastPlace?_eq_none_iff.mp hlast callee)
  | some found =>
    obtain ⟨hnamed', hgreatest'⟩ := hfound hlast
    rw [Nat.le_antisymm (hgreatest found hnamed') (hgreatest' callee hnamed)]

/-- Only names count. -/
theorem otherPlace?_congr (h : definitions.map Definition.name = definitions'.map Definition.name) :
    otherPlace? definitions caller name = otherPlace? definitions' caller name := by
  have hnamed : ∀ {l : List Definition} {place},
      NamedAt l name place ↔ (l.map Definition.name)[place]? = some name := by
    intro l place
    rw [List.getElem?_map, Option.map_eq_some_iff]
    exact Iff.rfl
  refine Option.ext fun callee => ?_
  simp only [otherPlace?_eq_some_iff, hnamed, h]

/-- The other definitions, told apart by their places. -/
theorem eraseIdx_eq_filter (definitions : List Definition) (caller first : Nat) :
    definitions.eraseIdx caller = ((definitions.zipIdx first).filter fun entry =>
      decide (entry.2 ≠ first + caller)).map Prod.fst := by
  induction definitions generalizing caller first with
  | nil => rfl
  | cons d rest ih =>
    rw [List.zipIdx_cons]
    cases caller with
    | zero =>
      have hothers : ∀ entry ∈ rest.zipIdx (first + 1), decide (entry.2 ≠ first + 0) = true := by
        intro entry hin
        have hle := List.le_snd_of_mem_zipIdx hin
        simp only [decide_eq_true_iff]
        omega
      rw [List.eraseIdx_cons_zero, List.filter_cons_of_neg (by simp),
        List.filter_eq_self.mpr hothers, List.zipIdx_map_fst]
    | succ caller =>
      rw [List.eraseIdx_cons_succ, List.filter_cons_of_pos (by simp), List.map_cons,
        ih caller (first + 1)]
      simp only [Nat.add_assoc, Nat.add_comm 1]

/-- **The other definitions are searched in their order.** -/
theorem find?_eraseIdx (definitions : List Definition) (caller : Nat) (name : String) :
    (definitions.eraseIdx caller).find? (fun d => decide (d.name = name))
      = (otherPlace? definitions caller name).bind fun callee => definitions[callee]? := by
  rw [eraseIdx_eq_filter definitions caller 0, List.find?_map, List.find?_filter, otherPlace?]
  have hsame : (definitions.zipIdx.find? fun entry =>
      decide (decide (entry.2 ≠ 0 + caller) = true ∧ decide (entry.1.name = name) = true))
      = definitions.zipIdx.find? fun entry => decide (entry.1.name = name ∧ entry.2 ≠ caller) := by
    simp only [decide_eq_true_eq, Nat.zero_add, and_comm]
  refine (congrArg (Option.map Prod.fst) hsame).trans ?_
  cases hfind : definitions.zipIdx.find? fun entry =>
    decide (entry.1.name = name ∧ entry.2 ≠ caller) with
  | none => rfl
  | some entry => exact (List.mem_zipIdx_iff_getElem?.mp (List.mem_of_find?_eq_some hfind)).symm

/-! ## 2. When the two agree -/

/-- **A call of the name is unambiguous**: nobody has the name, or one other definition has it, and
the caller, if it has it as well, stands in front of that. -/
def Unambiguous (definitions : List Definition) (caller : Nat) (name : String) : Prop :=
  (∀ place, ¬ NamedAt definitions name place) ∨
  ∃ callee, NamedAt definitions name callee ∧ callee ≠ caller ∧
    ∀ place, NamedAt definitions name place → place = callee ∨ place = caller ∧ caller < callee

/-- **The last definition of a name is the first other one exactly for unambiguous calls.** -/
theorem lastPlace?_eq_otherPlace?_iff :
    lastPlace? definitions name = otherPlace? definitions caller name ↔
      Unambiguous definitions caller name := by
  constructor
  · intro h
    cases hother : otherPlace? definitions caller name with
    | none => exact .inl (lastPlace?_eq_none_iff.mp (h.trans hother))
    | some callee =>
      obtain ⟨hnamed, hne, hleast⟩ := otherPlace?_eq_some_iff.mp hother
      obtain ⟨-, hgreatest⟩ := lastPlace?_eq_some_iff.mp (h.trans hother)
      refine .inr ⟨callee, hnamed, hne, fun place hplace => ?_⟩
      by_cases hcaller : place = caller
      · subst hcaller
        exact .inr ⟨rfl, lt_of_le_of_ne (hgreatest place hplace) (Ne.symm hne)⟩
      · exact .inl (Nat.le_antisymm (hgreatest place hplace) (hleast place hplace hcaller))
  · rintro (hnone | ⟨callee, hnamed, hne, honly⟩)
    · rw [lastPlace?_eq_none_iff.mpr hnone,
        otherPlace?_eq_none_iff.mpr fun place hplace => absurd hplace (hnone place)]
    · have hlast : lastPlace? definitions name = some callee := by
        refine lastPlace?_eq_some_iff.mpr ⟨hnamed, fun place hplace => ?_⟩
        rcases honly place hplace with rfl | ⟨rfl, hlt⟩
        · exact le_refl _
        · exact hlt.le
      have hother : otherPlace? definitions caller name = some callee := by
        refine otherPlace?_eq_some_iff.mpr ⟨hnamed, hne, fun place hplace hcaller => ?_⟩
        exact ((honly place hplace).resolve_right fun h => hcaller h.1).ge
      rw [hlast, hother]

/-! ## 3. Verification and inlining -/

/-- Verification looks at one of the others only. -/
theorem Verification.checkCall_congr {d : Definition}
    {others others' : List Definition} {id : NodeId} {args : List NodeId} {type : ValueType}
    (h : others.find? (fun other => decide (other.name = name))
      = others'.find? fun other => decide (other.name = name)) :
    checkCall d others id args name type = checkCall d others' id args name type := by
  simp only [checkCall, h]

/-- So does inlining. -/
theorem Inlining.visit_congr {others others' : List Definition} {id : NodeId} {args : List NodeId}
    {type : ValueType} {v : VisitState Memory}
    (hcall : v.definition.behavior.payload? id = some (.funcCall args name type))
    (h : others.find? (fun other => decide (other.name = name))
      = others'.find? fun other => decide (other.name = name)) :
    visit others id v = visit others' id v := by
  unfold visit
  rw [Run.bind_ok (Run.state_apply _), Run.bind_ok (Run.state_apply _)]
  simp only [hcall, h]

/-- The definition found is all there is to search. -/
theorem find?_toList (others : List Definition) (name : String) :
    (others.find? fun d => decide (d.name = name)).toList.find? (fun d => decide (d.name = name))
      = others.find? fun d => decide (d.name = name) := by
  cases hfind : others.find? fun d => decide (d.name = name) with
  | none => rfl
  | some d =>
    have hname := List.find?_some hfind
    exact List.find?_cons_of_pos (p := fun d : Definition => decide (d.name = name)) hname

/-- Inlining keeps names. -/
theorem Inlining.visitDefinition_name (others : List Definition) (v : VisitState Memory) :
    (pass.visitor.visitDefinition others).Ends v fun _ v' => v'.definition.name
      = v.definition.name := by
  refine pass.visitor.visitDefinition_preserves_name (fun _ v hname => hname)
    (fun {hook act} hact => ?_) (fun _ => ?_) others v rfl
  · intro others id
    obtain rfl : visit = act := by
      simp only [pass] at hact
      split at hact
      · exact Option.some.inj hact
      · exact absurd hact (by simp)
    refine .bind (fun v hname => hname) fun v => ?_
    split
    · split
      · exact fun v hname => hname
      · refine .bind (fun v hname => (ends_inlinable _).mpr hname) fun answer => ?_
        split
        · exact fun v hname => hname
        · refine .bind (fun v hname => (ends_copyIn _).mpr hname) fun copy => ?_
          exact .bind (fun v hname => hname) fun _ v hname => hname
    · exact fun v hname => hname
  · intro v hname
    exact (Run.ends_count (fun v : VisitState Memory => v.memory.inlined) _ _ _ _).mpr hname

/-! ## 4. The schedule -/

/-- **By the schedule's rule the definition at `caller` calls the one at `callee`.** -/
def ScheduledAt (definitions : List Definition) (caller callee : Nat) : Prop :=
  ∃ d name, definitions[caller]? = some d ∧ name ∈ d.calls ∧
    lastPlace? definitions name = some callee

/-- **By the rule of verification and inlining it does.** -/
def ResolvedAt (definitions : List Definition) (caller callee : Nat) : Prop :=
  ∃ d name, definitions[caller]? = some d ∧ name ∈ d.calls ∧
    otherPlace? definitions caller name = some callee

theorem edge_iff_scheduledAt :
    (callGraph definitions).Edge callee caller ↔ ScheduledAt definitions caller callee := by
  rw [callGraph_eq, Digraph.edge_addEdges]
  simp only [callings, List.mem_flatMap, List.mem_map, List.mem_filterMap, Prod.mk.injEq]
  constructor
  · rintro (hnone | ⟨⟨d, index⟩, hentry, place, ⟨name, hname, hplace⟩, rfl, rfl⟩)
    · exact absurd hnone (by simp [Digraph.Edge])
    · exact ⟨d, name, List.mem_zipIdx_iff_getElem?.mp hentry, hname, hplace⟩
  · rintro ⟨d, name, hd, hname, hplace⟩
    exact .inr ⟨(d, caller), List.mem_zipIdx_iff_getElem?.mpr hd, callee,
      ⟨name, hname, hplace⟩, rfl, rfl⟩

/-- **Schedules follow a rule** that says whom a definition calls: callees stand in front of
callers, and there is no schedule exactly where the rule leads in a circle. -/
structure ScheduledBy (definitions : List Definition) (calls : Nat → Nat → Prop) : Prop where
  fails_iff : (∃ error, schedule definitions .calleesFirst = .error error) ↔
    ∃ place, Relation.TransGen calls place place
  callees_first : ∀ places, schedule definitions .calleesFirst = .ok places →
    ∀ caller callee, calls caller callee → places.idxOf callee < places.idxOf caller

/-- **Schedules follow their own rule**, by which the last definition of a name is called. -/
theorem scheduledBy_scheduledAt (definitions : List Definition) :
    ScheduledBy definitions (ScheduledAt definitions) := by
  have hclosed : (callGraph definitions).Closed := callGraph_closed definitions
  have hswap : (callGraph definitions).Edge = Function.swap (ScheduledAt definitions) := by
    funext callee caller
    exact propext edge_iff_scheduledAt
  rcases Digraph.order?_cases hclosed with ⟨order, horder, hforward, hnodup, hmem⟩
    | ⟨place, horder, hcycle⟩
  · have hschedule : schedule definitions .calleesFirst = .ok order := by simp [schedule, horder]
    have hin : ∀ {u v}, (callGraph definitions).Edge u v → u ∈ order :=
      fun hedge => (hmem _).mpr (hclosed hedge).1
    refine ⟨⟨?_, ?_⟩, fun places hplaces caller callee hcall => ?_⟩
    · rintro ⟨error, herror⟩
      rw [hschedule] at herror
      exact absurd herror (by simp)
    · rintro ⟨place, hcycle⟩
      refine absurd ?_ (hforward.acyclic hnodup (fun hedge => hin hedge) place)
      rwa [hswap, Relation.transGen_swap]
    · rw [hschedule] at hplaces
      obtain rfl := Except.ok.inj hplaces
      have hedge := edge_iff_scheduledAt.mpr hcall
      exact hforward.idxOf_lt hnodup (hin hedge) hedge
  · have herror : ∃ error, schedule definitions .calleesFirst = .error error := by
      simp only [schedule, horder]
      cases definitions[place]? <;> exact ⟨_, rfl⟩
    rw [hswap, Relation.transGen_swap] at hcycle
    refine ⟨iff_of_true herror ⟨place, hcycle⟩, fun places hplaces => ?_⟩
    obtain ⟨error, herror⟩ := herror
    rw [hplaces] at herror
    exact absurd herror (by simp)

/-- An unambiguous call is the same call by both rules. -/
theorem scheduledAt_eq_resolvedAt
    (h : ∀ caller d name, definitions[caller]? = some d → name ∈ d.calls →
      Unambiguous definitions caller name) :
    ScheduledAt definitions = ResolvedAt definitions := by
  funext caller callee
  refine propext ⟨?_, ?_⟩
  · rintro ⟨d, name, hd, hname, hplace⟩
    exact ⟨d, name, hd, hname, (lastPlace?_eq_otherPlace?_iff.mpr (h caller d name hd hname))
      ▸ hplace⟩
  · rintro ⟨d, name, hd, hname, hplace⟩
    exact ⟨d, name, hd, hname, (lastPlace?_eq_otherPlace?_iff.mpr (h caller d name hd hname))
      ▸ hplace⟩

/-! ## 5. What inlining finds -/

/-- What a callback finds under a name: the first other definition, as it is then. -/
theorem Tour.find?_others {ε σ : Type} {change : List Definition → Run ε (VisitState σ) Unit}
    {done : List (Nat × Visit)} {now : List Definition} {visit : Visit}
    (h : Tour change definitions done now)
    (hkeeps : ∀ others v, (change others).Ends v fun _ v' => v'.definition.name = v.definition.name)
    (hothers : visit.others = now.eraseIdx place) :
    visit.others.find? (fun d => decide (d.name = name))
      = (otherPlace? definitions place name).bind fun callee => now[callee]? := by
  rw [hothers, find?_eraseIdx, otherPlace?_congr (h.map_name hkeeps)]

/-- **Callees that are put in front of their callers have had their visit.** -/
theorem Pass.visited_of_scheduledAt {σ : Type} {pass : Pass σ} {p : PassState σ}
    (horder : pass.visitor.callOrder = .calleesFirst) :
    pass.visit.Ends p fun _ p' =>
      ∃ tour, Tour pass.visitor.visitDefinition p.context.definitions tour p'.context.definitions ∧
        tour.map Prod.snd = pass.visits p ∧
        ∀ {done caller visit rest callee}, tour = done ++ (caller, visit) :: rest →
          ScheduledAt p.context.definitions caller callee → ∃ earlier,
            (callee, earlier) ∈ done := by
  cases hskip : pass.visitor.precondition p.memory p.context with
  | some reason =>
    refine (visit_of_some hskip).imp fun r p' hend => ?_
    obtain ⟨-, rfl, hvisits⟩ := hend
    exact ⟨[], .none, hvisits.symm, fun htour => absurd htour (by simp)⟩
  | none =>
    cases hschedule : schedule p.context.definitions pass.visitor.callOrder with
    | error error =>
      refine (visit_of_error hskip hschedule).imp fun r p' hend => ?_
      obtain ⟨-, rfl, hvisits⟩ := hend
      exact ⟨[], .none, hvisits.symm, fun htour => absurd htour (by simp)⟩
    | ok places =>
      refine (exists_tour_of_ok hskip hschedule).imp fun r p' hend => ?_
      obtain ⟨-, tour, htour, hrecord, ⟨later, hplaces⟩, -⟩ := hend
      refine ⟨tour, htour, hrecord, ?_⟩
      rintro done caller visit rest callee rfl hcall
      have hnodup : places.Nodup := (schedule_perm hschedule).nodup_iff.mpr List.nodup_range
      have hlt :=
        (scheduledBy_scheduledAt _).callees_first places (horder ▸ hschedule) caller callee hcall
      have hsplit : places = done.map Prod.fst ++ caller :: (rest.map Prod.fst ++ later) := by
        rw [← hplaces]
        simp
      obtain ⟨⟨_, earlier⟩, hin, rfl⟩ := List.mem_map.mp (mem_front_of_idxOf_lt hnodup hsplit hlt)
      exact ⟨earlier, hin⟩

/-- The definition that verification and inlining take a name for: the first other one that has it.
-/
def firstOther? (definitions : List Definition) (caller : Nat) (name : String) :
    Option Definition :=
  (otherPlace? definitions caller name).bind fun callee => definitions[callee]?

/-- **A call means the first other definition of its name** to verification and to inlining:
neither looks at any other. -/
structure CallsFirst (definitions : List Definition) (caller : Nat) (d : Definition) (id : NodeId)
    (args : List NodeId) (name : String) (type : ValueType) : Prop where
  verified : Verification.checkCall d (definitions.eraseIdx caller) id args name type
    = Verification.checkCall d (firstOther? definitions caller name).toList id args name type
  inlined : ∀ memory, Inlining.visit (definitions.eraseIdx caller) id ⟨memory, d⟩
    = Inlining.visit (firstOther? definitions caller name).toList id ⟨memory, d⟩

/-- **What a name finds at a visit**, when the definitions visited before have been left as `done`
says. -/
structure VisitFinds (definitions : List Definition) (done : List (Nat × Visit)) (caller : Nat)
    (visit : Visit) : Prop where
  given : definitions[caller]? = some visit.given
  find?_eq : ∀ name, visit.others.find? (fun d => decide (d.name = name))
    = (otherPlace? definitions caller name).bind fun callee => (leave definitions done)[callee]?
  /-- An unambiguous call finds its callee as the visit of the callee has left it. -/
  visited : ∀ name ∈ visit.given.calls, Unambiguous definitions caller name →
    ∀ callee, otherPlace? definitions caller name = some callee →
      ∃ earlier, (callee, earlier) ∈ done ∧
        visit.others.find? (fun d => decide (d.name = name)) = some earlier.left

/-- **Whom calls name, names not assumed distinct.**

Verification and inlining look at the first other definition of the name and at no other.  The
schedule looks at the last definition of the name, and the two are the same exactly for unambiguous
calls.  A schedule has callees in front of callers by its own rule, and recursion is reported
exactly where that rule leads in a circle; where every call is unambiguous both can be said of the
first rule.  At each visit of the inlining pass a name finds the first other definition as it is
then, and **an unambiguous call finds its callee as the visit of the callee has left it**. -/
theorem calls_find_first_schedule_last (definitions : List Definition) :
    (∀ caller d id args name type, definitions[caller]? = some d →
      d.behavior.member? id = some (.funcCall args name type) →
      CallsFirst definitions caller d id args name type ∧
      (lastPlace? definitions name = otherPlace? definitions caller name ↔
        Unambiguous definitions caller name)) ∧
    ScheduledBy definitions (ScheduledAt definitions) ∧
    ((∀ caller d name, definitions[caller]? = some d → name ∈ d.calls →
        Unambiguous definitions caller name) →
      ScheduledBy definitions (ResolvedAt definitions)) ∧
    ∀ memory options, ∃ tour : List (Nat × Visit),
      tour.map Prod.snd = Inlining.pass.visits ⟨memory, definitions, options⟩ ∧
      ∀ done caller visit rest, tour = done ++ (caller, visit) :: rest →
        VisitFinds definitions done caller visit := by
  have hscheduled := scheduledBy_scheduledAt definitions
  refine ⟨?_, hscheduled, fun hall => ?_, fun memory options => ?_⟩
  · intro caller d id args name type hd hmember
    have hfound : (definitions.eraseIdx caller).find? (fun d => decide (d.name = name))
        = (firstOther? definitions caller name).toList.find? fun d => decide (d.name = name) := by
      rw [firstOther?, ← find?_eraseIdx, find?_toList]
    refine ⟨⟨Verification.checkCall_congr hfound, fun memory => ?_⟩, lastPlace?_eq_otherPlace?_iff⟩
    exact Inlining.visit_congr (Graph.payload?_of_member? hmember) hfound
  · rwa [← scheduledAt_eq_resolvedAt hall]
  · obtain ⟨tour, htour, hrecord, hvisited⟩ :=
      Inlining.pass.visited_of_scheduledAt (p := ⟨memory, definitions, options⟩) rfl
    refine ⟨tour, hrecord, ?_⟩
    rintro done caller visit rest rfl
    obtain ⟨now, hnow, hgiven, hothers, -⟩ := htour.given
    have hfind : ∀ name, visit.others.find? (fun d => decide (d.name = name))
        = (otherPlace? definitions caller name).bind fun callee => now[callee]? := fun name =>
      hnow.find?_others Inlining.visitDefinition_name hothers
    refine ⟨hgiven, fun name => hnow.eq_leave ▸ hfind name,
      fun name hname hunambiguous callee hcallee => ?_⟩
    have hlast := lastPlace?_eq_otherPlace?_iff.mpr hunambiguous
    obtain ⟨earlier, hin⟩ := hvisited rfl ⟨visit.given, name, hgiven, hname, hlast.trans hcallee⟩
    refine ⟨earlier, hin, ?_⟩
    rw [hfind, hcallee, Option.bind_some, hnow.getElem?_of_mem hin]

/-- Two functions of one name, the first of which calls a third, and a caller of the name. -/
def doubled : List Definition :=
  [calling "f" ["g"], calling "c" ["f"], calling "g" [], calling "f" []]

/-- The caller finds the first of the two functions, which is scheduled behind it. -/
theorem calls_find_first_schedule_last_doubled :
    otherPlace? doubled 1 "f" = some 0 ∧ lastPlace? doubled "f" = some 3 ∧
    ¬ Unambiguous doubled 1 "f" ∧ ResolvedAt doubled 1 0 ∧
    schedule doubled .calleesFirst = .ok [3, 2, 1, 0] ∧
    ∀ places, schedule doubled .calleesFirst = .ok places → ∀ caller callee,
      ScheduledAt doubled caller callee → places.idxOf callee < places.idxOf caller := by
  have hother : otherPlace? doubled 1 "f" = some 0 := by cbv
  have hlast : lastPlace? doubled "f" = some 3 := by cbv
  have hmember : (calling "c" ["f"]).behavior.member? ⟨0⟩
      = some (.funcCall [] "f" (.uint 8)) := by cbv
  have hname : "f" ∈ (calling "c" ["f"]).calls := Definition.mem_calls_iff.mpr ⟨_, _, _, hmember⟩
  obtain ⟨hfirst, hscheduled, -, -⟩ := calls_find_first_schedule_last doubled
  refine ⟨hother, hlast, fun hunambiguous => ?_, ⟨_, "f", rfl, hname, hother⟩, by cbv,
    hscheduled.callees_first⟩
  have hsame := (hfirst 1 _ ⟨0⟩ [] "f" (.uint 8) rfl hmember).2.mpr hunambiguous
  rw [hother, hlast] at hsame
  exact absurd hsame (by decide)

end BehaviorGraph
