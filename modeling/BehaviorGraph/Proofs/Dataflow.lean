/-
# Reading without cycles

Members read each other along their input edges.  Where reading has no cycles every member has a
rank above the ranks of what it reads, and since ranks stay below the size of the arena (`Ranked`),
every walk along input edges ends within the bounds the library gives it.

Two things follow.  The origin of a value is found behind any chain of bindings, so **every value
has a type** (`exists_typeOf`).  And a search that starts at a value stays among values of lower
rank, so **nothing that reads a value can be reached from it** (`reaches_eq_false`).
-/
import BehaviorGraph.Proofs.Copying
import Mathlib.Data.Finset.Card
import Mathlib.Data.Finset.Filter
import Mathlib.Logic.Relation

namespace BehaviorGraph

/-! ## 1. Searching -/

/-- What a search finds can be reached from where it starts. -/
theorem mem_search {α : Type} [DecidableEq α] {next : α → List α} {bound : Nat}
    {stack seen : List α} {v : α} (h : v ∈ search next bound stack seen) :
    v ∈ seen ∨ ∃ source ∈ stack, Relation.ReflTransGen (fun a b => b ∈ next a) source v := by
  fun_induction search next bound stack seen with
  | case1 bound seen => exact Or.inl h
  | case2 bound seen first rest hseen ih =>
    rcases ih h with hmem | ⟨source, hsource, hpath⟩
    · exact Or.inl hmem
    · exact Or.inr ⟨source, List.mem_cons_of_mem first hsource, hpath⟩
  | case3 seen first rest hseen => exact Or.inl h
  | case4 seen first rest hseen bound ih =>
    rcases ih h with hmem | ⟨source, hsource, hpath⟩
    · rcases List.mem_cons.mp hmem with rfl | hmem
      · exact Or.inr ⟨v, by simp, .refl⟩
      · exact Or.inl hmem
    · rcases List.mem_append.mp hsource with hnext | hrest
      · exact Or.inr ⟨first, by simp, .head hnext hpath⟩
      · exact Or.inr ⟨source, List.mem_cons_of_mem first hrest, hpath⟩

/-- **The invariant of a search**: what is on the stack and what was seen is in sight, nothing was
seen twice, and the bound covers what is in sight and was not seen. -/
structure Sighted {α : Type} (sight stack seen : List α) (bound : Nat) : Prop where
  ahead : ∀ v ∈ stack, v ∈ sight
  behind : ∀ v ∈ seen, v ∈ sight
  nodup : seen.Nodup
  bound : sight.length ≤ bound + seen.length

namespace Sighted

variable {α : Type} {sight rest seen : List α} {v : α} {bound : Nat}

/-- The first vertex on the stack may be dropped. -/
theorem drop (h : Sighted sight (v :: rest) seen bound) : Sighted sight rest seen bound :=
  ⟨fun w hw => h.ahead w (List.mem_cons_of_mem v hw), h.behind, h.nodup, h.bound⟩

/-- **There is room for a vertex that was not seen**, and for what is pushed for it. -/
theorem visit (h : Sighted sight (v :: rest) seen bound) (hnew : v ∉ seen) {pushed : List α}
    (hpushed : ∀ w ∈ pushed, w ∈ sight) :
    ∃ less, bound = less + 1 ∧ Sighted sight (pushed ++ rest) (v :: seen) less := by
  have hseen : ∀ w ∈ v :: seen, w ∈ sight := by
    intro w hw
    rcases List.mem_cons.mp hw with rfl | hw
    · exact h.ahead w (by simp)
    · exact h.behind w hw
  have hnodup : (v :: seen).Nodup := List.nodup_cons.mpr ⟨hnew, h.nodup⟩
  -- The vertices seen are no more than there are in sight.
  have hlength := (List.subperm_of_subset hnodup hseen).length_le
  rw [List.length_cons] at hlength
  have hbound := h.bound
  refine ⟨bound - 1, by omega, ?_, hseen, hnodup, by rw [List.length_cons]; omega⟩
  intro w hw
  rcases List.mem_append.mp hw with hw | hw
  · exact hpushed w hw
  · exact h.ahead w (List.mem_cons_of_mem v hw)

end Sighted

/-- **A search with a bound that covers everything in sight leaves nothing out**: all that was seen
or is on the stack is found, and what is next to a vertex that is found is found. -/
theorem search_closed {α : Type} [DecidableEq α] {next : α → List α} {sight stack seen : List α}
    {bound : Nat} (hsight : ∀ v, ∀ w ∈ next v, w ∈ sight) (h : Sighted sight stack seen bound)
    (hfollowed : ∀ v ∈ seen, ∀ w ∈ next v, w ∈ seen ∨ w ∈ stack) :
    (∀ v, v ∈ seen ∨ v ∈ stack → v ∈ search next bound stack seen) ∧
      ∀ v ∈ search next bound stack seen, ∀ w ∈ next v, w ∈ search next bound stack seen := by
  fun_induction search next bound stack seen with
  | case1 bound seen => simpa using hfollowed
  | case2 bound seen first rest hfirst ih =>
    obtain ⟨hall, hclosed⟩ := ih h.drop fun v hv w hw => by
      rcases hfollowed v hv w hw with hw | hw
      · exact Or.inl hw
      · rcases List.mem_cons.mp hw with rfl | hw
        · exact Or.inl hfirst
        · exact Or.inr hw
    refine ⟨?_, hclosed⟩
    rintro v (hv | hv)
    · exact hall v (Or.inl hv)
    · rcases List.mem_cons.mp hv with rfl | hv
      · exact hall v (Or.inl hfirst)
      · exact hall v (Or.inr hv)
  | case3 seen first rest hfirst =>
    obtain ⟨less, hless, -⟩ := h.visit hfirst (hsight first)
    exact absurd hless (by simp)
  | case4 seen first rest hfirst bound ih =>
    have hfollowed' : ∀ v ∈ first :: seen, ∀ w ∈ next v,
        w ∈ first :: seen ∨ w ∈ next first ++ rest := by
      intro v hv w hw
      rcases List.mem_cons.mp hv with rfl | hv
      · exact Or.inr (List.mem_append_left _ hw)
      · rcases hfollowed v hv w hw with hw | hw
        · exact Or.inl (List.mem_cons_of_mem first hw)
        · rcases List.mem_cons.mp hw with rfl | hw
          · exact Or.inl (by simp)
          · exact Or.inr (List.mem_append_right _ hw)
    obtain ⟨less, hless, hnext⟩ := h.visit hfirst (hsight first)
    obtain rfl := Nat.succ.inj hless
    obtain ⟨hall, hclosed⟩ := ih hnext hfollowed'
    refine ⟨fun v hv => hall v ?_, hclosed⟩
    rcases hv with hv | hv
    · exact Or.inl (List.mem_cons_of_mem first hv)
    · rcases List.mem_cons.mp hv with rfl | hv
      · exact Or.inl (by simp)
      · exact Or.inr (List.mem_append_right _ hv)

/-- At the start nothing was seen. -/
theorem sighted_start {α : Type} {sight : List α} {bound : Nat} {source : α}
    (hsource : source ∈ sight) (hbound : sight.length ≤ bound) : Sighted sight [source] [] bound :=
  ⟨by simpa using hsource, by simp, List.nodup_nil, hbound⟩

/-- **What can be reached from where a search starts is found**, given such a bound. -/
theorem mem_search_of_path {α : Type} [DecidableEq α] {next : α → List α} (sight : List α)
    {bound : Nat} {source v : α} (hsight : ∀ v, ∀ w ∈ next v, w ∈ sight) (hsource : source ∈ sight)
    (hbound : sight.length ≤ bound)
    (hpath : Relation.ReflTransGen (fun a b => b ∈ next a) source v) :
    v ∈ search next bound [source] [] := by
  obtain ⟨hall, hclosed⟩ := search_closed hsight (sighted_start hsource hbound) (by simp)
  induction hpath with
  | refl => exact hall source (by simp)
  | tail _ hstep ih => exact hclosed _ ih _ hstep

/-- What a search from one vertex finds can be reached from it, whatever the bound. -/
theorem path_of_mem_search {α : Type} [DecidableEq α] {next : α → List α} {bound : Nat}
    {source v : α}
    (h : v ∈ search next bound [source] []) :
      Relation.ReflTransGen (fun a b => b ∈ next a) source v := by
  rcases mem_search h with hnone | ⟨start, hstart, hpath⟩
  · exact absurd hnone List.not_mem_nil
  · rwa [List.mem_singleton.mp hstart] at hpath

/-- **A search finds what can be reached from where it starts, and nothing else.** -/
theorem mem_search_iff {α : Type} [DecidableEq α] {next : α → List α} (sight : List α) {bound : Nat}
    {source v : α} (hsight : ∀ v, ∀ w ∈ next v, w ∈ sight) (hsource : source ∈ sight)
    (hbound : sight.length ≤ bound) :
    v ∈ search next bound [source] [] ↔ Relation.ReflTransGen (fun a b => b ∈ next a) source v := by
  exact ⟨path_of_mem_search, mem_search_of_path sight hsight hsource hbound⟩

namespace Payload

variable {payload : Payload} {id : NodeId}

theorem mem_inputEdges_iff :
    id ∈ payload.inputEdges ↔ ∃ slot ∈ payload.inputSlots, slot.target = some id := by
  simp [inputEdges, List.mem_filterMap]

@[simp] theorem mem_inputEdges_builtInCall {args : List NodeId} {op : BuiltIn} {type : ValueType} :
    id ∈ (builtInCall args op type).inputEdges ↔ id ∈ args := by
  simp [inputEdges, inputSlots, Slot.required]

@[simp] theorem mem_inputEdges_funcCall {args : List NodeId} {func : String} {type : ValueType} :
    id ∈ (funcCall args func type).inputEdges ↔ id ∈ args := by
  simp [inputEdges, inputSlots, Slot.required]

@[simp] theorem mem_inputEdges_select {condition trueCase falseCase : NodeId} {type : ValueType} :
    id ∈ (select condition trueCase falseCase type).inputEdges
      ↔ id = condition ∨ id = trueCase ∨ id = falseCase := by
  simp [inputEdges, inputSlots, Slot.required]

/-- The value a payload is made of, where it has one input of that name. -/
theorem mem_inputEdges_of_value {payload : Payload} {value : NodeId}
    (h : payload.inputSlots = [.required "value" .value value]) :
    id ∈ payload.inputEdges ↔ id = value := by
  simp [inputEdges, h, Slot.required]

theorem value_mem_inputEdges {payload : Payload} {value : NodeId}
    (h : payload.inputSlots = [.required "value" .value value]) : value ∈ payload.inputEdges :=
  (mem_inputEdges_of_value h).mpr rfl

theorem mem_inputs_iff : some id ∈ payload.inputs ↔ id ∈ payload.inputEdges := by
  simp [inputs, inputEdges, List.mem_filterMap]

theorem mem_edges_of_mem_inputEdges (h : id ∈ payload.inputEdges) : id ∈ payload.edges := by
  obtain ⟨slot, hslot, htarget⟩ := mem_inputEdges_iff.mp h
  exact mem_edges_iff.mpr ⟨slot, List.mem_append_left _ hslot, htarget⟩

theorem not_mem_inputEdges_of_isUnique (h : payload.kind.isUnique = true) :
    id ∉ payload.inputEdges := by
  intro hid
  have hedge := mem_edges_of_mem_inputEdges hid
  rw [edges_of_isUnique h] at hedge
  exact absurd hedge (by simp)

/-- **A value reads values and nothing else**: it has no successors. -/
theorem successorSlots_of_isValue (h : payload.kind.isA .value = true) :
    payload.successorSlots = [] := by
  cases payload <;> first | rfl | exact Bool.noConfusion h

theorem family_of_isValue (h : payload.kind.isA .value = true) :
    ∀ slot ∈ payload.inputSlots, slot.family = .value := by
  cases payload <;> first | exact Bool.noConfusion h | simp [inputSlots, Slot.required]

theorem edges_of_isValue (h : payload.kind.isA .value = true) :
    payload.edges = payload.inputEdges := by
  rw [edges, slots, successorSlots_of_isValue h, List.append_nil, inputEdges]

/-- A value declares its type, unless it only names another value. -/
theorem declaredType_of_isValue (h : payload.kind.isA .value = true)
    (hbinding : ∀ value name, payload ≠ .binding value name) :
    ∃ type, payload.declaredType = some type := by
  cases payload <;>
    first
    | exact ⟨_, rfl⟩
    | exact Bool.noConfusion h
    | exact absurd rfl (hbinding _ _)

end Payload

namespace Graph

variable {g : Graph} {id value target : NodeId} {payload : Payload} {rank : NodeId → Nat}

/-! ## 2. Ranks -/

/-- One member reads another node. -/
def ReadsFrom (g : Graph) (user target : NodeId) : Prop :=
  ∃ payload, g.member? user = some payload ∧ target ∈ payload.inputEdges

/-- **No member reads itself**, at whatever distance. -/
def Acyclic (g : Graph) : Prop := ∀ id, ¬ Relation.TransGen g.ReadsFrom id id

/-- Ranks that witness it: what a member reads has a lower rank. -/
structure Ranked (g : Graph) (rank : NodeId → Nat) : Prop where
  bounded : ∀ {id payload}, g.member? id = some payload → rank id < g.nodes.size
  falls : ∀ {id payload}, g.member? id = some payload → ∀ target ∈ payload.inputEdges,
    rank target < rank id

/-- What a member reads is a member. -/
theorem Kept.member?_of_mem_inputEdges (h : g.Kept) (hmember : g.member? id = some payload)
    (htarget : target ∈ payload.inputEdges) : ∃ payload', g.member? target = some payload' :=
  h.member?_of_mem_edges hmember (Payload.mem_edges_of_mem_inputEdges htarget)

/-- **Where reading has no cycles, the members that are read at some distance give a rank.** -/
theorem Acyclic.exists_ranked (hacyclic : g.Acyclic) (h : g.Kept) : ∃ rank, g.Ranked rank := by
  classical
  let behind (id : NodeId) : Finset NodeId :=
    g.members.toFinset.filter fun other => Relation.TransGen g.ReadsFrom id other
  have hmem : ∀ {id other payload}, g.member? other = some payload →
      (other ∈ behind id ↔ Relation.TransGen g.ReadsFrom id other) := by
    intro id other payload hother
    simp [behind, mem_members_iff, hother]
  refine ⟨fun id => (behind id).card, ?_, ?_⟩
  · intro id payload hmember
    have hsub : behind id ⊆ g.members.toFinset.erase id := by
      intro other hother
      obtain ⟨hin, hpath⟩ := Finset.mem_filter.mp hother
      refine Finset.mem_erase.mpr ⟨?_, hin⟩
      rintro rfl
      exact hacyclic other hpath
    have hid : id ∈ g.members.toFinset := List.mem_toFinset.mpr (mem_members_iff.mpr ⟨_, hmember⟩)
    have hcard := Finset.card_le_card hsub
    rw [Finset.card_erase_of_mem hid] at hcard
    have hpos : 0 < g.members.toFinset.card := Finset.card_pos.mpr ⟨id, hid⟩
    have hlen : g.members.toFinset.card ≤ g.members.length := List.toFinset_card_le _
    have hsize : g.members.length ≤ g.nodes.size := by
      have := List.length_filter_le g.isActive g.ids
      simpa [members, ids] using this
    omega
  · intro id payload hmember target htarget
    obtain ⟨found, hfound⟩ := h.member?_of_mem_inputEdges hmember htarget
    have hreads : g.ReadsFrom id target := ⟨payload, hmember, htarget⟩
    refine Finset.card_lt_card ⟨?_, fun hsub => ?_⟩
    · intro other hother
      obtain ⟨hin, hpath⟩ := Finset.mem_filter.mp hother
      exact Finset.mem_filter.mpr ⟨hin, hpath.head hreads⟩
    · have hself := hsub ((hmem hfound).mpr (Relation.TransGen.single hreads))
      exact hacyclic target ((hmem hfound).mp hself)

/-- Ranks rule cycles out. -/
theorem Ranked.acyclic (hranked : g.Ranked rank) : g.Acyclic := by
  have hfalls : ∀ {user target}, Relation.TransGen g.ReadsFrom user target →
      rank target < rank user := by
    intro user target hpath
    induction hpath with
    | single hreads =>
      obtain ⟨payload, hmember, htarget⟩ := hreads
      exact hranked.falls hmember _ htarget
    | tail _ hreads ih =>
      obtain ⟨payload, hmember, htarget⟩ := hreads
      exact Nat.lt_trans (hranked.falls hmember _ htarget) ih
  exact fun id hpath => Nat.lt_irrefl _ (hfalls hpath)

/-- A graph whose members read only what was created before them is without cycles. -/
theorem acyclic_of_creation (h : (g.members.all fun id =>
    (g.inputs id).all fun target => target.all fun target => decide (target.index < id.index))
      = true) :
    g.Acyclic := by
  refine Ranked.acyclic (show g.Ranked NodeId.index from ⟨?_, ?_⟩)
  · intro id payload hmember
    obtain ⟨node, hnode, -, -⟩ := member?_eq_some_iff.mp hmember
    exact lt_size_of_node? hnode
  · intro id payload hmember target htarget
    have hall := List.all_eq_true.mp h id (mem_members_iff.mpr ⟨payload, hmember⟩)
    have hin : some target ∈ g.inputs id := by
      rw [inputs, payload?_of_member? hmember]
      exact Payload.mem_inputs_iff.mpr htarget
    simpa using List.all_eq_true.mp hall _ hin

/-- **What holds of a member if it holds of everything the member reads, holds of all members.** -/
theorem Ranked.induct (hranked : g.Ranked rank) (h : g.Kept) {P : NodeId → Prop}
    (hstep : ∀ {id payload}, g.member? id = some payload →
      (∀ target ∈ payload.inputEdges, P target) → P id)
    (hmember : g.member? id = some payload) : P id := by
  induction hrank : rank id using Nat.strong_induction_on generalizing id payload with
  | _ n ih =>
    refine hstep hmember fun target htarget => ?_
    obtain ⟨found, hfound⟩ := h.member?_of_mem_inputEdges hmember htarget
    exact ih (rank target) (hrank ▸ hranked.falls hmember target htarget) hfound rfl

/-! ## 3. Origins and types -/

theorem unbind_binding {bound : Nat} {name : String}
    (hmember : g.member? id = some (.binding value name)) :
    g.unbind (bound + 1) id = g.unbind bound value := by
  rw [unbind, payload?_of_member? hmember]

theorem unbind_of_ne_binding (hmember : g.member? id = some payload)
    (hbinding : ∀ value name, payload ≠ .binding value name) (bound : Nat) :
    g.unbind bound id = id := by
  cases bound with
  | zero => rfl
  | succ bound =>
    rw [unbind, payload?_of_member? hmember]
    cases payload with
    | binding value name => exact absurd rfl (hbinding value name)
    | _ => rfl

/-- Following bindings ends within the rank of a member. -/
theorem unbind_succ (h : g.Kept) (hranked : g.Ranked rank) {bound : Nat}
    (hmember : g.member? id = some payload) (hbound : rank id ≤ bound) :
    g.unbind (bound + 1) id = g.unbind bound id := by
  induction bound generalizing id payload with
  | zero =>
    -- A member of rank zero reads nothing, so it is no binding.
    refine unbind_of_ne_binding hmember (fun value name hpayload => ?_) 1
    subst hpayload
    have hlt := hranked.falls hmember value (Payload.value_mem_inputEdges rfl)
    omega
  | succ bound ih =>
    by_cases hbinding : ∀ value name, payload ≠ .binding value name
    · rw [unbind_of_ne_binding hmember hbinding, unbind_of_ne_binding hmember hbinding]
    · push Not at hbinding
      obtain ⟨value, name, rfl⟩ := hbinding
      have hvalue : value ∈ (Payload.binding value name).inputEdges :=
        Payload.value_mem_inputEdges rfl
      have hlt := hranked.falls hmember value hvalue
      obtain ⟨found, hfound⟩ := h.member?_of_mem_inputEdges hmember hvalue
      rw [unbind_binding hmember, unbind_binding hmember]
      exact ih hfound (by omega)

/-- **A binding has the origin of what it names.** -/
theorem origin_binding (h : g.Kept) (hranked : g.Ranked rank) {name : String}
    (hmember : g.member? id = some (.binding value name)) : g.origin id = g.origin value := by
  have hvalue : value ∈ (Payload.binding value name).inputEdges :=
    Payload.value_mem_inputEdges rfl
  obtain ⟨found, hfound⟩ := h.member?_of_mem_inputEdges hmember hvalue
  have hlt := hranked.falls hmember value hvalue
  have hsize := hranked.bounded hmember
  obtain ⟨bound, hbound⟩ : ∃ bound, g.nodes.size = bound + 1 := ⟨g.nodes.size - 1, by omega⟩
  rw [origin, origin, hbound, unbind_succ h hranked hfound (by omega), unbind_binding hmember]

theorem origin_of_ne_binding (hmember : g.member? id = some payload)
    (hbinding : ∀ value name, payload ≠ .binding value name) : g.origin id = id :=
  unbind_of_ne_binding hmember hbinding g.nodes.size

theorem typeOf_binding (h : g.Kept) (hranked : g.Ranked rank) {name : String}
    (hmember : g.member? id = some (.binding value name)) : g.typeOf id = g.typeOf value := by
  rw [typeOf, typeOf, origin_binding h hranked hmember]

theorem typeOf_of_ne_binding (hmember : g.member? id = some payload)
    (hbinding : ∀ value name, payload ≠ .binding value name) :
    g.typeOf id = payload.declaredType := by
  rw [typeOf, origin_of_ne_binding hmember hbinding, payload?_of_member? hmember, Option.bind_some]

/-- The targets a value reads are values. -/
theorem Kept.value_of_mem_inputEdges (h : g.Kept) (hmember : g.member? id = some payload)
    (hvalue : payload.kind.isA .value = true) (htarget : target ∈ payload.inputEdges) :
    ∃ payload', g.member? target = some payload' ∧ payload'.kind.isA .value = true := by
  obtain ⟨slot, hslot, hset⟩ := Payload.mem_inputEdges_iff.mp htarget
  have hfilled := h.filled hmember slot (List.mem_append_left _ hslot)
  obtain ⟨payload', hmember', hfamily⟩ := (fills_some hset).mp hfilled
  rw [Payload.family_of_isValue hvalue slot hslot] at hfamily
  exact ⟨payload', hmember', hfamily⟩

/-- **The type of a value is the one its origin declares**: a binding has the type of what it
names, every other value the type it declares itself. -/
theorem typeOf_eq (h : g.Kept) (hranked : g.Ranked rank) (hmember : g.member? id = some payload) :
    g.typeOf id = match payload with
      | .binding value _ => g.typeOf value
      | payload => payload.declaredType := by
  cases payload with
  | binding value name => exact typeOf_binding h hranked hmember
  | _ => exact typeOf_of_ne_binding hmember (by simp)

/-- **Every value has a type**, and a member declares it. -/
theorem exists_typeOf (h : g.Kept) (hranked : g.Ranked rank) (hmember : g.member? id = some payload)
    (hvalue : payload.kind.isA .value = true) :
    ∃ type, g.typeOf id = some type ∧
      ∃ origin found, g.member? origin = some found ∧ found.declaredType = some type := by
  refine hranked.induct h (P := fun id => ∀ payload, g.member? id = some payload →
    payload.kind.isA .value = true → ∃ type, g.typeOf id = some type ∧
      ∃ origin found, g.member? origin = some found ∧ found.declaredType = some type)
    ?_ hmember payload hmember hvalue
  intro id payload hmember ih found hfound hkind
  rw [hmember] at hfound
  obtain rfl := Option.some.inj hfound
  rw [typeOf_eq h hranked hmember]
  by_cases hbinding : ∃ value name, payload = .binding value name
  · obtain ⟨value, name, rfl⟩ := hbinding
    have hin : value ∈ (Payload.binding value name).inputEdges :=
      Payload.value_mem_inputEdges rfl
    obtain ⟨named, hnamed, hkind'⟩ := h.value_of_mem_inputEdges hmember hkind hin
    exact ih value hin named hnamed hkind'
  · obtain ⟨type, htype⟩ := Payload.declaredType_of_isValue hkind
      fun value name heq => hbinding ⟨value, name, heq⟩
    refine ⟨type, ?_, id, payload, hmember, htype⟩
    cases payload with
    | binding value name => exact absurd ⟨value, name, rfl⟩ hbinding
    | _ => exact htype

/-! ## 4. What a value leads to -/

/-- What can be reached from a value is a value of no higher rank. -/
theorem value_of_path (h : g.Kept) (hranked : g.Ranked rank) {goal : NodeId}
    (hmember : g.member? id = some payload) (hvalue : payload.kind.isA .value = true)
    (hpath : Relation.ReflTransGen (fun a b => b ∈ g.edges a) id goal) : rank goal ≤ rank id := by
  induction hpath using Relation.ReflTransGen.head_induction_on generalizing payload with
  | refl => exact Nat.le_refl _
  | head hstep hrest ih =>
    rw [edges_of_member? hmember, Payload.edges_of_isValue hvalue] at hstep
    obtain ⟨found, hfound, hkind⟩ := h.value_of_mem_inputEdges hmember hvalue hstep
    exact (ih hfound hkind).trans (Nat.le_of_lt (hranked.falls hmember _ hstep))

/-- **Nothing of the same or a higher rank can be reached from a value**, the value itself apart. -/
theorem reaches_eq_false (h : g.Kept) (hranked : g.Ranked rank) {goal : NodeId}
    (hmember : g.member? id = some payload) (hvalue : payload.kind.isA .value = true)
    (hne : id ≠ goal) (hle : rank id ≤ rank goal) : g.reaches id goal = false := by
  refine Bool.eq_false_iff.mpr fun hreaches => ?_
  have hpath := path_of_mem_search (List.contains_iff_mem.mp hreaches)
  rcases Relation.ReflTransGen.cases_head hpath with heq | ⟨next, hnext, hrest⟩
  · exact hne heq
  · rw [edges_of_member? hmember, Payload.edges_of_isValue hvalue] at hnext
    obtain ⟨found, hfound, hkind⟩ := h.value_of_mem_inputEdges hmember hvalue hnext
    have hfalls := hranked.falls hmember next hnext
    have hpath' := value_of_path h hranked hfound hkind hrest
    omega

end Graph

end BehaviorGraph
