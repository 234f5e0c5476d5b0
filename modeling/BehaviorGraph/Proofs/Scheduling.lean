/-
# The order of definitions

Definitions are scheduled by the places they have in a list.  **One definition calls another if it
has a call that names it** (`CallsAt`), and where names are distinct these are the edges of the
call graph (`edge_callGraph_iff`).

So a schedule exists exactly where no definition calls itself, at whatever distance.  It is then a
permutation of the places with callees in front of callers, and otherwise the error names a
definition on a cycle (`schedule_orders_calls`).
-/
import BehaviorGraph.Proofs.Histories
import BehaviorGraph.Proofs.Ordering
import BehaviorGraph.Proofs.Outline

namespace BehaviorGraph

/-! ## 1. Calls by place -/

/-- **The definition at `caller` has a call that names the definition at `callee`.** -/
def CallsAt (definitions : List Definition) (caller callee : Nat) : Prop :=
  ∃ d d' id args type, definitions[caller]? = some d ∧ definitions[callee]? = some d' ∧
    d.behavior.member? id = some (.funcCall args d'.name type)

/-- A definition has one name listed for each of its calls. -/
theorem Definition.mem_calls_iff {d : Definition} {name : String} :
    name ∈ d.calls ↔ ∃ id args type, d.behavior.member? id = some (.funcCall args name type) := by
  simp only [calls, List.mem_filterMap, Graph.mem_membersOf_iff]
  constructor
  · rintro ⟨id, ⟨payload, hmember, -⟩, hname⟩
    rw [Graph.payload?_of_member? hmember] at hname
    cases payload with
    | funcCall args func type =>
      obtain rfl := Option.some.inj hname
      exact ⟨id, args, type, hmember⟩
    | _ => exact absurd hname (by simp)
  · rintro ⟨id, args, type, hmember⟩
    refine ⟨id, ⟨_, hmember, rfl⟩, ?_⟩
    rw [Graph.payload?_of_member? hmember]

variable {definitions : List Definition} {caller callee place : Nat}

/-- Distinct names have one place each. -/
theorem place_unique (hnames : (definitions.map Definition.name).Nodup) {d d' : Definition}
    {place' : Nat} (hd : definitions[place]? = some d) (hd' : definitions[place']? = some d')
    (hname : d.name = d'.name) : place = place' := by
  have hlt : place < (definitions.map Definition.name).length := by
    rw [List.length_map]
    exact (List.getElem?_eq_some_iff.mp hd).1
  refine (List.getElem?_inj hlt hnames).mp ?_
  rw [List.getElem?_map, List.getElem?_map, hd, hd', Option.map_some, Option.map_some, hname]

/-- Where names are distinct the last place of a name is its only one. -/
theorem lastPlace?_name (hnames : (definitions.map Definition.name).Nodup) {d : Definition}
    (hd : definitions[place]? = some d) : lastPlace? definitions d.name = some place := by
  cases hlast : lastPlace? definitions d.name with
  | none =>
    have hentry : (d, place) ∈ definitions.zipIdx.reverse :=
      List.mem_reverse.mpr (List.mem_zipIdx_iff_getElem?.mpr hd)
    have hnone := List.find?_eq_none.mp (Option.map_eq_none_iff.mp hlast) _ hentry
    exact absurd (decide_eq_true rfl) hnone
  | some place' =>
    obtain ⟨d', hd', hname⟩ := name_of_lastPlace? hlast
    rw [place_unique hnames hd' hd hname]

/-- **The edges of the call graph are the calls**, from the callee to the caller. -/
theorem edge_callGraph_iff (hnames : (definitions.map Definition.name).Nodup) :
    (callGraph definitions).Edge callee caller ↔ CallsAt definitions caller callee := by
  rw [callGraph_eq, Digraph.edge_addEdges]
  simp only [callings, List.mem_flatMap, List.mem_map, List.mem_filterMap, Prod.mk.injEq]
  constructor
  · rintro (hnone | ⟨⟨d, index⟩, hentry, place, ⟨name, hname, hplace⟩, rfl, rfl⟩)
    · exact absurd hnone (by simp [Digraph.Edge])
    · obtain ⟨d', hd', rfl⟩ := name_of_lastPlace? hplace
      obtain ⟨id, args, type, hmember⟩ := Definition.mem_calls_iff.mp hname
      exact ⟨d, d', id, args, type, List.mem_zipIdx_iff_getElem?.mp hentry, hd', hmember⟩
  · rintro ⟨d, d', id, args, type, hd, hd', hmember⟩
    refine Or.inr ⟨(d, caller), List.mem_zipIdx_iff_getElem?.mpr hd, callee,
      ⟨d'.name, Definition.mem_calls_iff.mpr ⟨id, args, type, hmember⟩, ?_⟩, rfl, rfl⟩
    exact lastPlace?_name hnames hd'

/-- A cycle of edges is a cycle of calls. -/
theorem cycle_callGraph_iff (hnames : (definitions.map Definition.name).Nodup) :
    Relation.TransGen (callGraph definitions).Edge place place
      ↔ Relation.TransGen (CallsAt definitions) place place := by
  have hswap : (callGraph definitions).Edge = Function.swap (CallsAt definitions) := by
    funext callee caller
    exact propext (edge_callGraph_iff hnames)
  rw [hswap, Relation.transGen_swap]

/-! ## 2. Schedules -/

/-- **What is scheduled**: callees in front of callers, each place once; and what is reported
otherwise. -/
inductive Scheduling (definitions : List Definition) : Except Error (List Nat) → Prop
  | ordered {places : List Nat} (hperm : places.Perm (List.range definitions.length))
    (hcalls : ∀ {caller callee}, CallsAt definitions caller callee →
      places.idxOf callee < places.idxOf caller)
    (hacyclic : ∀ place, ¬ Relation.TransGen (CallsAt definitions) place place) :
    Scheduling definitions (.ok places)
  | recursive {place : Nat} {d : Definition} (hd : definitions[place]? = some d)
    (hcycle : Relation.TransGen (CallsAt definitions) place place) :
    Scheduling definitions (.error
      ((Error.malformedStructure ("function `" ++ d.name ++ "` is recursive")).locatedAt
        d.position))

theorem schedule_calleesFirst (hnames : (definitions.map Definition.name).Nodup) :
    Scheduling definitions (schedule definitions .calleesFirst) := by
  have hclosed : (callGraph definitions).Closed := callGraph_closed definitions
  have hvertices : ∀ place, place ∈ (callGraph definitions).vertices ↔ place < definitions.length :=
    fun place => @mem_vertices_callGraph { definitions := definitions } place
  rcases Digraph.order?_cases hclosed with ⟨places, horder, hforward, hnodup, hmem⟩
    | ⟨place, horder, hcycle⟩
  · have hschedule : schedule definitions .calleesFirst = .ok places := by simp [schedule, horder]
    rw [hschedule]
    refine .ordered ?_ (fun {caller callee} hcalls => ?_) fun place hcycle => ?_
    · refine (List.perm_ext_iff_of_nodup hnodup List.nodup_range).mpr fun place => ?_
      rw [hmem, hvertices, List.mem_range]
    · have hedge := (edge_callGraph_iff hnames).mpr hcalls
      exact hforward.idxOf_lt hnodup ((hmem callee).mpr (hclosed hedge).1) hedge
    · refine hforward.acyclic hnodup (fun hedge => ?_) place
        ((cycle_callGraph_iff hnames).mpr hcycle)
      exact (hmem _).mpr (hclosed hedge).1
  · obtain ⟨next, hedge, -⟩ := Relation.TransGen.head'_iff.mp hcycle
    have hlt := (hvertices place).mp (hclosed hedge).1
    have hd : definitions[place]? = some definitions[place] := List.getElem?_eq_getElem hlt
    have hschedule : schedule definitions .calleesFirst = .error ((Error.malformedStructure
        ("function `" ++ definitions[place].name ++ "` is recursive")).locatedAt
          definitions[place].position) := by
      simp [schedule, horder, hd]
    rw [hschedule]
    exact .recursive hd ((cycle_callGraph_iff hnames).mp hcycle)

/-- The order in which callers come first is the other one read backward. -/
theorem schedule_callersFirst (definitions : List Definition) :
    schedule definitions .callersFirst
      = (schedule definitions .calleesFirst).map List.reverse := by
  simp only [schedule]
  cases (callGraph definitions).order? with
  | ok places => rfl
  | error place =>
    simp only
    cases definitions[place]? <;> rfl

/-- **Every schedule has each place once**, whether names are distinct or not. -/
theorem schedule_perm {order : CallOrder} {places : List Nat}
    (h : schedule definitions order = .ok places) :
      places.Perm (List.range definitions.length) := by
  have hcallees : ∀ {places}, schedule definitions .calleesFirst = .ok places →
      places.Perm (List.range definitions.length) := by
    intro places hplaces
    simp only [schedule] at hplaces
    rcases Digraph.order?_cases (callGraph_closed definitions) with
      ⟨order, horder, -, hnodup, hmem⟩ | ⟨place, herror, -⟩
    · rw [horder] at hplaces
      obtain rfl := Except.ok.inj hplaces
      refine (List.perm_ext_iff_of_nodup hnodup List.nodup_range).mpr fun place => ?_
      rw [hmem, List.mem_range]
      exact @mem_vertices_callGraph { definitions := definitions } place
    · rw [herror] at hplaces
      cases hd : definitions[place]? <;> simp [hd] at hplaces
  cases order with
  | listed => rw [← Except.ok.inj h]
  | calleesFirst => exact hcallees h
  | callersFirst =>
    rw [schedule_callersFirst] at h
    cases hplaces : schedule definitions .calleesFirst with
    | error error =>
      rw [hplaces] at h
      exact absurd h (by simp [Except.map])
    | ok found =>
      rw [hplaces] at h
      rw [← Except.ok.inj h]
      exact (List.reverse_perm _).trans (hcallees hplaces)

/-- The place whose turn it is has not had it before. -/
theorem fresh_of_schedule {order : CallOrder} {done rest : List Nat}
    (h : schedule definitions order = .ok (done ++ place :: rest)) :
    place ∉ done ∧ place < definitions.length := by
  have hperm := schedule_perm h
  have hnodup : (done ++ place :: rest).Nodup := hperm.nodup_iff.mpr List.nodup_range
  exact ⟨fun hin => (List.nodup_append.mp hnodup).2.2 place hin place (by simp) rfl,
    List.mem_range.mp (hperm.mem_iff.mp (by simp))⟩

/-- Who comes before the one whose turn it is has had its turn. -/
theorem mem_front_of_idxOf_lt {front behind places : List Nat} {place callee : Nat}
    (hnodup : places.Nodup)
    (hplaces : places = front ++ place :: behind) (hlt : places.idxOf callee < places.idxOf place) :
    callee ∈ front := by
  subst hplaces
  have hfresh : place ∉ front :=
    fun hin => (List.nodup_append.mp hnodup).2.2 place hin place (by simp) rfl
  rw [List.idxOf_append_of_notMem hfresh, List.idxOf_cons_self] at hlt
  by_contra hout
  rw [List.idxOf_append_of_notMem hout] at hlt
  omega

/-- **Definitions of distinct names can be scheduled exactly if none of them calls itself, at
whatever distance.**  The schedule has every place once, callees in front of callers, and callers
come first in it read backward; the error names a definition that calls itself.  The listed order
always exists. -/
theorem schedule_orders_calls (hnames : (definitions.map Definition.name).Nodup) :
    ((∃ error, schedule definitions .calleesFirst = .error error)
      ↔ ∃ place, Relation.TransGen (CallsAt definitions) place place) ∧
    (∀ error, schedule definitions .calleesFirst = .error error →
      schedule definitions .callersFirst = .error error ∧
      ∃ (place : Nat) (d : Definition), definitions[place]? = some d ∧
        Relation.TransGen (CallsAt definitions) place place ∧
        error = (Error.malformedStructure ("function `" ++ d.name ++ "` is recursive")).locatedAt
          d.position) ∧
    (∀ places, schedule definitions .calleesFirst = .ok places →
      places.Perm (List.range definitions.length) ∧
      (∀ caller callee, CallsAt definitions caller callee →
        places.idxOf callee < places.idxOf caller) ∧
      schedule definitions .callersFirst = .ok places.reverse) ∧
    schedule definitions .listed = .ok (List.range definitions.length) := by
  rw [schedule_callersFirst]
  generalize hresult : schedule definitions .calleesFirst = result
  have hscheduling : Scheduling definitions result := hresult ▸ schedule_calleesFirst hnames
  cases hscheduling with
  | ordered hperm hcalls hacyclic =>
    refine ⟨⟨?_, fun ⟨place, hcycle⟩ => absurd hcycle (hacyclic place)⟩, ?_, ?_, rfl⟩
    · rintro ⟨error, herror⟩
      exact absurd herror (by simp)
    · intro error herror
      exact absurd herror (by simp)
    · intro places hplaces
      obtain rfl := Except.ok.inj hplaces
      exact ⟨hperm, fun _ _ => hcalls, rfl⟩
  | @recursive place d hd hcycle =>
    refine ⟨⟨fun _ => ⟨place, hcycle⟩, fun _ => ⟨_, rfl⟩⟩, ?_, ?_, rfl⟩
    · intro error herror
      obtain rfl := Except.error.inj herror
      exact ⟨rfl, place, d, hd, hcycle, rfl⟩
    · intro places hplaces
      exact absurd hplaces (by simp)

/-- A function that calls others by name, once for each time they are listed. -/
def calling (name : String) (callees : List String) : Definition where
  name := name
  role := .function
  behavior := (callees.map fun callee => Move.add (.funcCall [] callee (.uint 8))).foldl
    (fun g move => move.after g) (.empty name)

/-- One function that calls nothing known, and two that call each other. -/
def ring : List Definition :=
  [calling "f" ["unknown"], calling "g" ["h", "f", "f"], calling "h" ["g"]]

-- Without the last call there is an order.
example :
    schedule [calling "g" ["h", "f", "f"], calling "f" ["unknown"], calling "h" ["f"]] .calleesFirst
    = .ok [1, 2, 0] := by cbv

/-- In a ring the error names one of the two. -/
theorem schedule_orders_calls_ring :
    (ring.map Definition.name).Nodup ∧
    schedule ring .calleesFirst
      = .error ((Error.malformedStructure "function `h` is recursive").locatedAt none) ∧
    (∃ place, Relation.TransGen (CallsAt ring) place place) ∧
    schedule ring .listed = .ok [0, 1, 2] := by
  have hnames : (ring.map Definition.name).Nodup := by decide
  have herror : schedule ring .calleesFirst
      = .error ((Error.malformedStructure "function `h` is recursive").locatedAt none) := by cbv
  obtain ⟨hiff, -, -, hlisted⟩ := schedule_orders_calls hnames
  exact ⟨hnames, herror, hiff.mp ⟨_, herror⟩, hlisted⟩

end BehaviorGraph
