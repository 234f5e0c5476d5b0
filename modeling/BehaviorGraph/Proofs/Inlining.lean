/-
# Inlining a call

A call is inlined in two steps: the value its callee returns is transplanted, the arguments of the
call being given for the callee's parameters, and then the call is exchanged for what stands for
that value (`Graph.Inlined`).  Neither can fail where reading has no cycles, since the arguments
rank below the call and so does everything transplanted.

Whatever the graphs are read as, who stands for a node of the callee comes to what the node comes
to, if the arguments come to what the parameters come to (`Inlined.value_moved`).  Read as terms
this says that **inlining is substitution without capture** (`Reachable.inlining_substitutes`).

What the rest of the development needs of the pass is said once.  A callee that is inlined returns
a value and has an argument for every parameter it refers to (`Returns`); a visit passes a member
by or inlines a call (`Visited`); and whatever such visits keep, or hand on, the run keeps or hands
on (`visitDefinition_keeps`, `visitDefinition_hands_on`).
-/
import BehaviorGraph.Pass.Inlining
import BehaviorGraph.Proofs.Rewriting
import BehaviorGraph.Proofs.Terms
import BehaviorGraph.Proofs.Transplanting
import BehaviorGraph.Proofs.Visiting

namespace BehaviorGraph

/-- Whose edges lead elsewhere is a parameter only if it was one. -/
theorem Payload.mapEdges_eq_param_iff {payload : Payload} {f : NodeId → NodeId} {name : String}
    {type : ValueType} : payload.mapEdges f = .param name type ↔ payload = .param name type := by
  refine ⟨fun h => ?_, by rintro rfl; rfl⟩
  have hkind : payload.kind = .param := by rw [← kind_mapEdges f, h]; rfl
  rwa [mapEdges_of_isUnique (by rw [hkind]; rfl)] at h

/-! ## 1. Arguments for parameters -/

namespace Inlining

variable {α : Type} {callee : Definition} {args ids : List NodeId} {table : Table NodeId NodeId}
  {id arg value : NodeId} {name : String} {type : ValueType} {limit : Option Nat}

/-- **What is given for a name**: the item at the place of the first parameter of that name. -/
def itemFor (params : List Param) (items : List α) (name : String) : Option α :=
  (params.findIdx? fun param => decide (param.name = name)).bind fun place => items[place]?

/-- A parameter is given the argument at the place of its name, and then the rest is bound. -/
theorem bindParams_cons_param {rest : List NodeId}
    (h : callee.behavior.payload? id = some (.param name type)) :
    bindParams callee args (id :: rest) = (itemFor callee.params args name).bind fun arg =>
      (bindParams callee args rest).bind fun table => some (table.insert id arg) := by
  rw [bindParams, h, itemFor]
  simp only
  cases callee.params.findIdx? fun param => decide (param.name = name) <;> rfl

/-- What is no parameter is passed over. -/
theorem bindParams_cons_of_ne {rest : List NodeId}
    (h : ∀ name type, callee.behavior.payload? id ≠ some (.param name type)) :
    bindParams callee args (id :: rest) = bindParams callee args rest := by
  rw [bindParams]
  split
  · rename_i name type hpayload
    exact absurd hpayload (h name type)
  · rfl

/-- Every entry is for a parameter, and the argument is the one its name asks for, by induction on
the members that are bound: the entry is that of the first of them or was there without it. -/
theorem of_get?_bindParams (h : bindParams callee args ids = some table)
    (hentry : table.get? id = some arg) :
    ∃ name type, callee.behavior.payload? id = some (.param name type) ∧
      itemFor callee.params args name = some arg := by
  induction ids generalizing table with
  | nil =>
    obtain rfl := Option.some.inj h
    exact absurd hentry (by simp [Table.get?_empty])
  | cons first rest ih =>
    by_cases hparam : ∃ name type, callee.behavior.payload? first = some (.param name type)
    · obtain ⟨name, type, hpayload⟩ := hparam
      rw [bindParams_cons_param hpayload] at h
      obtain ⟨arg', hitem, h⟩ := Option.bind_eq_some_iff.mp h
      obtain ⟨before, hrest, h⟩ := Option.bind_eq_some_iff.mp h
      obtain rfl := Option.some.inj h
      by_cases heq : id = first
      · subst heq
        rw [Table.get?_insert_self] at hentry
        obtain rfl := Option.some.inj hentry
        exact ⟨name, type, hpayload, hitem⟩
      · rw [Table.get?_insert_of_ne _ _ heq] at hentry
        exact ih hrest hentry
    · rw [bindParams_cons_of_ne fun name type hpayload => hparam ⟨name, type, hpayload⟩] at h
      exact ih h hentry

/-- **Every parameter has an entry.** -/
theorem exists_get?_bindParams (h : bindParams callee args ids = some table) (hid : id ∈ ids)
    (hpayload : callee.behavior.payload? id = some (.param name type)) :
    ∃ arg, table.get? id = some arg := by
  induction ids generalizing table with
  | nil => exact absurd hid (by simp)
  | cons first rest ih =>
    by_cases hparam : ∃ name type, callee.behavior.payload? first = some (.param name type)
    · obtain ⟨name', type', hfirst⟩ := hparam
      rw [bindParams_cons_param hfirst] at h
      obtain ⟨arg, -, h⟩ := Option.bind_eq_some_iff.mp h
      obtain ⟨before, hrest, h⟩ := Option.bind_eq_some_iff.mp h
      obtain rfl := Option.some.inj h
      by_cases heq : id = first
      · subst heq
        exact ⟨arg, Table.get?_insert_self _ _ _⟩
      · rw [Table.get?_insert_of_ne _ _ heq]
        exact ih hrest ((List.mem_cons.mp hid).resolve_left heq)
    · rw [bindParams_cons_of_ne fun name type hfirst => hparam ⟨name, type, hfirst⟩] at h
      rcases List.mem_cons.mp hid with rfl | hin
      · exact absurd ⟨name, type, hpayload⟩ hparam
      · exact ih h hin

/-- What is given is an argument. -/
theorem mem_of_itemFor {items : List α} {item : α} {params : List Param}
    (h : itemFor params items name = some item) : item ∈ items := by
  obtain ⟨place, -, hplace⟩ := Option.bind_eq_some_iff.mp h
  exact List.mem_of_getElem? hplace

/-! ## 2. Callees that can be inlined -/

/-- What is answered about a callee, apart from what is logged. -/
def verdict (limit : Option Nat) (callee : Definition) (args : List NodeId) :
    Option (NodeId × Table NodeId NodeId) :=
  if hasForm callee args && !exceeds limit callee then returned callee args else none

/-- Asking about a callee changes nothing; what is logged on the way plays no part. -/
theorem ends_inlinable {v : VisitState Memory}
    (Q : Except Abort (Option (NodeId × Table NodeId NodeId)) → VisitState Memory → Prop) :
    (inlinable limit callee args).Ends v Q ↔ Q (.ok (verdict limit callee args)) v := by
  unfold inlinable verdict
  cases hasForm callee args with
  | false => exact Iff.rfl
  | true => cases exceeds limit callee <;> exact Iff.rfl

/-- **What is known of a callee that can be inlined**: it returns the value, and every parameter it
refers to has an argument. -/
structure Returns (callee : Definition) (args : List NodeId) (value : NodeId)
    (table : Table NodeId NodeId) : Prop where
  ret : ∃ ret, callee.behavior.member? ret = some (.ret value)
  bound : bindParams callee args (callee.behavior.membersOf (.exactly .param)) = some table

/-- The only return of a callee, and what it returns. -/
theorem exists_ret_iff :
    (∃ ret, callee.behavior.single? (.exactly .ret) = some ret ∧
      callee.behavior.payload? ret = some (.ret value)) ↔
    ∃ ret, callee.behavior.membersOf (.exactly .ret) = [ret] ∧
      callee.behavior.member? ret = some (.ret value) := by
  refine exists_congr fun ret => ?_
  unfold Graph.single?
  split
  · rename_i only honly
    obtain ⟨payload, hmember, -⟩ := Graph.mem_membersOf_iff.mp
      (show only ∈ callee.behavior.membersOf (.exactly .ret) by simp [honly])
    rw [honly, Option.some_inj, List.singleton_inj]
    refine and_congr_right fun hret => ?_
    rw [← hret, Graph.payload?_of_member? hmember, hmember]
  · rename_i hmany
    exact ⟨fun h => absurd h.1 (by simp), fun h => absurd h.1 (hmany ret)⟩

/-- What a callee returns, with the arguments bound to its parameters. -/
theorem returned_eq_some_iff : returned callee args = some (value, table) ↔
    (∃ ret, callee.behavior.single? (.exactly .ret) = some ret ∧
      callee.behavior.payload? ret = some (.ret value)) ∧
    bindParams callee args (callee.behavior.membersOf (.exactly .param)) = some table := by
  unfold returned
  constructor
  · intro h
    obtain ⟨ret, hret, h⟩ := Option.bind_eq_some_iff.mp h
    split at h
    · rename_i found hpayload
      obtain ⟨bound, hbound, h⟩ := Option.bind_eq_some_iff.mp h
      obtain ⟨rfl, rfl⟩ := Prod.mk.inj (Option.some.inj h)
      exact ⟨⟨ret, hret, hpayload⟩, hbound⟩
    · exact absurd h (by simp)
  · rintro ⟨⟨ret, hret, hpayload⟩, hbound⟩
    simp [hret, hpayload, hbound]

/-- **What it takes for a callee to be inlined.** -/
theorem verdict_eq_some_iff : verdict limit callee args = some (value, table) ↔
    hasForm callee args = true ∧ exceeds limit callee = false ∧
    (∃ ret, callee.behavior.membersOf (.exactly .ret) = [ret] ∧
      callee.behavior.member? ret = some (.ret value)) ∧
    bindParams callee args (callee.behavior.membersOf (.exactly .param)) = some table := by
  rw [← exists_ret_iff, ← returned_eq_some_iff, verdict]
  cases hasForm callee args <;> cases exceeds limit callee <;> simp

/-- Of what it takes to be inlined, only this is needed of the callee afterwards. -/
theorem returns_of_verdict (h : verdict limit callee args = some (value, table)) :
    Returns callee args value table := by
  obtain ⟨-, -, ⟨ret, -, hret⟩, hbound⟩ := verdict_eq_some_iff.mp h
  exact ⟨⟨ret, hret⟩, hbound⟩

namespace Returns

variable {payload : Payload}

/-- An entry is the argument for the name of its parameter. -/
theorem given (h : Returns callee args value table) (hentry : table.get? id = some arg) :
    ∃ name type, callee.behavior.payload? id = some (.param name type) ∧
      itemFor callee.params args name = some arg := of_get?_bindParams h.bound hentry

/-- So it is one of the arguments of the call. -/
theorem mem_args (h : Returns callee args value table) (harg : Graph.Given table arg) :
    arg ∈ args := by
  obtain ⟨id, hentry⟩ := harg
  obtain ⟨name, type, -, hitem⟩ := h.given hentry
  exact mem_of_itemFor hitem

/-- Every parameter that is referred to has an entry. -/
theorem exists_entry (h : Returns callee args value table)
    (hmember : callee.behavior.member? id = some (.param name type)) :
    ∃ arg, table.get? id = some arg :=
  exists_get?_bindParams h.bound (Graph.mem_membersOf_iff.mpr ⟨_, hmember, rfl⟩)
    (Graph.payload?_of_member? hmember)

/-- What has no entry is copied, and it is no parameter: **this is why none is captured**. -/
theorem ne_param (h : Returns callee args value table)
    (hmember : callee.behavior.member? id = some payload)
    (hnone : table.get? id = none) : payload ≠ .param name type := by
  rintro rfl
  obtain ⟨arg, hentry⟩ := h.exists_entry hmember
  rw [hnone] at hentry
  exact absurd hentry (by simp)

/-- Every parameter that is referred to has an argument. -/
theorem exists_itemFor (h : Returns callee args value table)
    (hmember : callee.behavior.member? id = some (.param name type)) :
    ∃ arg, itemFor callee.params args name = some arg := by
  obtain ⟨arg, hentry⟩ := h.exists_entry hmember
  obtain ⟨name', type', hpayload, hitem⟩ := h.given hentry
  rw [Graph.payload?_of_member? hmember] at hpayload
  obtain ⟨rfl, -⟩ := Payload.param.inj (Option.some.inj hpayload)
  exact ⟨arg, hitem⟩

/-- What is returned is a value. -/
theorem offers (h : Returns callee args value table) (hkept : callee.behavior.Kept) :
    callee.behavior.Offers value .value := by
  obtain ⟨ret, hret⟩ := h.ret
  exact (Graph.fills_some rfl).mp
    (hkept.filled hret (.required "value" .value value)
      (by simp [Payload.slots, Payload.inputSlots]))

end Returns

end Inlining

/-! ## 3. One call -/

namespace Graph

variable {α : Type} {I J : Interpretation α} {source g between g' : Graph}
  {table : Table NodeId NodeId} {id value call new : NodeId} {payload : Payload}
  {moved : NodeId → NodeId} {copied : NodeId → Prop} {rank sourceRank : NodeId → Nat}

/-- **The call was given up for a value of `source`**: the value was transplanted, and then took
the place of the call. -/
structure Inlined (source g : Graph) (table : Table NodeId NodeId) (value call new : NodeId)
    (between : Graph) (moved : NodeId → NodeId) (copied : NodeId → Prop) (rank : NodeId → Nat)
    (g' : Graph) : Prop where
  transplanted : Transplanted source g table moved copied between
  root : copied value
  stands : moved value = new
  ranked : between.Ranked rank
  /-- What was transplanted are values that do not read the call. -/
  below : ∀ {id}, copied id → between.Offers (moved id) .value ∧ moved id ≠ call ∧
    rank (moved id) ≤ rank call
  exchanged : between.Exchanged call new g'
  stillRanked : g'.Ranked rank
  later : g.Later g'

/-- Who stands for a value is a value. -/
theorem Transplanted.offers (h : Transplanted source g table moved copied g')
    (hgiven : ∀ {target}, Given table target → g.Offers target .value) (hid : copied id) :
    g'.Offers (moved id) .value := by
  cases hentry : table.get? id with
  | some arg =>
    obtain ⟨payload, hmember, hvalue⟩ := hgiven ⟨id, hentry⟩
    rw [h.given hentry]
    exact ⟨payload, h.member? hmember, hvalue⟩
  | none =>
    obtain ⟨payload, -, hvalue, hmember, -⟩ := h.reads hid hentry
    exact ⟨_, hmember, by rwa [Payload.kind_mapEdges]⟩

/-- Giving a value up after values were transplanted is a rewriting. -/
theorem Transplanted.rewritten (h : Transplanted source g table moved copied between)
    (hrewritten : between.Rewritten call new g') (hcall : g.Offers call .value) :
    g.Rewritten call new g' := by
  refine ⟨hrewritten.kept, hrewritten.ranked, Nat.le_trans h.size hrewritten.size, hcall,
    hrewritten.gone, ?_, ?_, h.framed.trans hrewritten.framed⟩
  · exact fun hne hmember => hrewritten.member? hne (h.member? hmember)
  · intro id payload hmember hnone
    cases hbetween : between.member? id with
    | none => exact Nat.le_trans h.size (hrewritten.fresh hmember hbetween)
    | some payload' => exact (h.fresh hbetween hnone).1

namespace Inlined

/-- The exchange as a rewriting of the graph between the two steps. -/
theorem rewritten_between (h : Inlined source g table value call new between moved copied rank g')
    (hcall : g.Offers call .value) : between.Rewritten call new g' := by
  obtain ⟨payload, hmember, hvalue⟩ := hcall
  exact h.exchanged.rewritten h.stillRanked ⟨payload, h.transplanted.member? hmember, hvalue⟩

/-- Both steps as one rewriting of the graph in the beginning. -/
theorem rewritten (h : Inlined source g table value call new between moved copied rank g')
    (hcall : g.Offers call .value) : g.Rewritten call new g' :=
  h.transplanted.rewritten (h.rewritten_between hcall) hcall

/-- **Who stands for a node comes to what the node comes to**, if every argument comes to what its
parameter comes to. -/
theorem value_moved (h : Inlined source g table value call new between moved copied rank g')
    (hkept : g.Kept) {rank₀ : NodeId → Nat} (hranked : g.Ranked rank₀) (hsource : source.Kept)
    (hsourceRanked : source.Ranked sourceRank) (hcall : g.Offers call .value)
    (hgiven : ∀ {target}, Given table target → g.Offers target .value)
    (hstep : ∀ {id payload}, source.member? id = some payload → table.get? id = none →
      I.step (moved id) payload = J.step id payload)
    (htable : ∀ {id arg payload}, table.get? id = some arg → source.member? id = some payload →
      J.value source id = I.value g arg)
    (hmember : source.member? id = some payload) (hid : copied id) :
    J.value source id = I.value g' (moved id) := by
  obtain ⟨⟨found, hfound, -⟩, hne, hle⟩ := h.below hid
  -- The exchange moves no value below the call, so it is enough to look at the graph between,
  -- where the copy comes to what was copied.
  rw [← (h.rewritten_between hcall).value_below h.transplanted.kept h.ranked hfound hne hle]
  refine h.transplanted.value_eq hsource hsourceRanked h.ranked hstep ?_ hmember hid
  intro id arg payload hentry hmember
  obtain ⟨found, hfound, -⟩ := hgiven ⟨id, hentry⟩
  rw [htable hentry hmember, h.transplanted.value_old hkept hranked h.ranked hfound]

/-- Who was a node of the arena keeps its state, and its payload but for edges to the call. -/
theorem node?_of_ne (h : Inlined source g table value call new between moved copied rank g')
    {node : Node} (hne : id ≠ call) (hnode : g.node? id = some node) :
    ∃ node', g'.node? id = some node' ∧ node'.state = node.state ∧
      node'.payload = if node.isActive then node.payload.mapEdges (swap call new)
        else node.payload := by
  obtain ⟨node', hnode', hstate', hpayload'⟩ := h.transplanted.old hnode
  by_cases hstate : node.state = .active
  · have hmember : between.member? id = some node.payload :=
      member?_eq_some_iff.mpr ⟨node', hnode', hstate'.trans hstate, hpayload'⟩
    obtain ⟨node'', hnode'', hstate'', hpayload''⟩ :=
      member?_eq_some_iff.mp (h.exchanged.member?_of_ne hne hmember)
    exact ⟨node'', hnode'', hstate''.trans hstate.symm, by simp [Node.isActive, hstate, hpayload'']⟩
  · obtain ⟨node'', hnode'', hstate'', hpayload''⟩ := h.exchanged.idle hnode' (hstate' ▸ hstate)
    exact ⟨node'', hnode'', hstate''.trans hstate',
      by simp [Node.isActive, hstate, hpayload''.trans hpayload']⟩

/-- **Every member was there before or is the copy of a node.**  The former has the payload it had,
but for edges to the call; the latter has the payload of the node, and reads what stands for what
the node reads. -/
theorem old_or_copy (h : Inlined source g table value call new between moved copied rank g')
    (hmember : g'.member? id = some payload) :
    (∃ found, id ≠ call ∧ g.member? id = some found ∧ payload = found.mapEdges (swap call new)) ∨
    ∃ origin found, g.member? id = none ∧ table.get? origin = none ∧
      source.member? origin = some found ∧ found.kind.isA .value = true ∧
      payload = found.mapEdges moved ∧ ∀ target ∈ found.inputEdges, copied target := by
  have hne : id ≠ call := by
    rintro rfl
    rw [h.exchanged.gone] at hmember
    exact absurd hmember (by simp)
  rw [h.exchanged.member?, if_neg hne] at hmember
  obtain ⟨payload, hbetween, rfl⟩ := Option.map_eq_some_iff.mp hmember
  -- Members of the graph between are the old ones and the copies; the exchange only leads the
  -- edges to the call elsewhere, and a copy has none.
  cases hold : g.member? id with
  | some found =>
    rw [h.transplanted.member? hold] at hbetween
    obtain rfl := Option.some.inj hbetween
    exact Or.inl ⟨found, hne, rfl, rfl⟩
  | none =>
    obtain ⟨-, origin, horigin, hentry, rfl⟩ := h.transplanted.fresh hbetween hold
    obtain ⟨found, hfound, hvalue, hcopy, hreads⟩ := h.transplanted.reads horigin hentry
    rw [hcopy] at hbetween
    obtain rfl := Option.some.inj hbetween
    refine Or.inr ⟨origin, found, rfl, hentry, hfound, hvalue, Payload.mapEdges_eq_self ?_, hreads⟩
    rw [Payload.edges_of_isValue (by rwa [Payload.kind_mapEdges]), Payload.inputEdges_mapEdges]
    intro target htarget
    obtain ⟨read, hread, rfl⟩ := List.mem_map.mp htarget
    exact swap_of_ne (h.below (hreads read hread)).2.1

/-- **No parameter comes in with the copy**, if all parameters of the source have entries. -/
theorem param_old (h : Inlined source g table value call new between moved copied rank g')
    {name : String} {type : ValueType}
    (hparams : ∀ {id payload}, source.member? id = some payload → table.get? id = none →
      payload ≠ .param name type)
    (hmember : g'.member? id = some (.param name type)) :
      g.member? id = some (.param name type) := by
  rcases h.old_or_copy hmember with
    ⟨found, -, hfound, hcopy⟩ | ⟨origin, found, -, hentry, hfound, -, hcopy, -⟩
  · rw [hfound, Payload.mapEdges_eq_param_iff.mp hcopy.symm]
  · exact absurd (Payload.mapEdges_eq_param_iff.mp hcopy.symm) (hparams hfound hentry)

end Inlined

end Graph

namespace Inlining

variable {others : List Definition} {callee : Definition} {args : List NodeId} {func : String}
  {type : ValueType} {call value : NodeId} {table : Table NodeId NodeId} {v : VisitState Memory}
  {rank sourceRank : NodeId → Nat}

/-- Copying in works on the behaviour alone. -/
theorem ends_copyIn (Q : Except Abort NodeId → VisitState Memory → Prop) :
    (copyIn callee value table).Ends v Q ↔
      (Graph.copyInto callee.behavior value).Ends ⟨v.definition.behavior, table⟩ fun r t =>
        Q (r.mapError Abort.ofFault) (v.withGraph t.target) := Run.ends_within _ _ _ _ _

/-- The memory after one more call. -/
def Memory.next (memory : Memory) : Memory := { memory with inlined := memory.inlined + 1 }

/-- The pass has a hook for calls. -/
theorem hook_funcCall :
    (Payload.funcCall args func type).kind.hooks.findSome? pass.visitor.hook = some visit := rfl

/-- It has none for anything else. -/
theorem hook_of_ne {payload : Payload} (h : payload.kind ≠ .funcCall) :
    payload.kind.hooks.findSome? pass.visitor.hook = none := by
  cases payload <;> first | rfl | exact absurd rfl h

/-- What a call is answered with. -/
theorem ends_visit (hcall : v.definition.behavior.payload? call = some (.funcCall args func type))
    (Q : Except Abort Action → VisitState Memory → Prop) :
    (visit others call).Ends v Q ↔
      match (others.find? fun d => decide (d.name = func)).bind fun callee =>
        (verdict v.memory.limit callee args).map (callee, ·) with
      | none => Q (.ok .proceed) v
      | some (callee, value, table) => (copyIn callee value table).Ends v fun
        | .ok copy, v' => Q (.ok (.change copy)) { v' with memory := v'.memory.next }
        | .error e, v' => Q (.error e) v' := by
  rw [visit, Run.ends_bind, Run.ends_state]
  simp only [hcall]
  cases others.find? fun d => decide (d.name = func) with
  | none => exact Iff.rfl
  | some callee =>
    simp only [Option.bind_some]
    rw [Run.ends_bind, ends_inlinable]
    simp only
    cases verdict v.memory.limit callee args with
    | none => exact Iff.rfl
    | some answer =>
      simp only [Option.map_some]
      rw [Run.ends_bind]
      refine Run.ends_congr fun r v' => ?_
      cases r <;> exact Iff.rfl

/-- The arguments of a call are values of lower rank. -/
theorem Returns.args_below (h : Returns callee args value table) {g : Graph} (hkept : g.Kept)
    (hranked : g.Ranked rank) (hcall : g.member? call = some (.funcCall args func type))
    {arg : NodeId} (harg : Graph.Given table arg) : g.Offers arg .value ∧ rank arg < rank call := by
  have hin : arg ∈ (Payload.funcCall args func type).inputEdges :=
    Payload.mem_inputEdges_funcCall.mpr (h.mem_args harg)
  exact ⟨hkept.value_of_mem_inputEdges hcall rfl hin, hranked.falls hcall arg hin⟩

/-- **A call of a callee that can be inlined is inlined.** -/
theorem visitStep_inlines (hkept : v.definition.behavior.Kept)
    (hranked : v.definition.behavior.Ranked rank)
    (hcall : v.definition.behavior.member? call = some (.funcCall args func type))
    (hcallee : (others.find? fun d => decide (d.name = func)) = some callee)
    (hsource : callee.behavior.Kept) (hsourceRanked : callee.behavior.Ranked sourceRank)
    (hverdict : verdict v.memory.limit callee args = some (value, table)) :
    (pass.visitor.visitStep others call).Ends v fun r v' => r = .ok true ∧
      ∃ new between moved copied rank g',
        Graph.Inlined callee.behavior v.definition.behavior table value call new between moved
          copied rank g' ∧
        v' = { v.withGraph g' with memory := v.memory.next } := by
  have hreturns := returns_of_verdict hverdict
  have hgiven : ∀ {target}, Graph.Given table target → v.definition.behavior.Offers target .value :=
    fun harg => (hreturns.args_below hkept hranked hcall harg).1
  obtain ⟨payload, hroot, hvalue⟩ := hreturns.offers hsource
  rw [Visitor.visitStep, Run.ends_bind,
    ends_visitNode_of_hook hcall hook_funcCall, ends_visit (Graph.payload?_of_member? hcall)]
  simp only [hcallee, hverdict, Option.bind_some, Option.map_some]
  rw [ends_copyIn]
  -- The first step: the value is transplanted.
  refine (Graph.copyInto_transplants hsource hsourceRanked hroot hvalue hkept hgiven).and_state.imp
    fun r t hend => ?_
  obtain ⟨⟨moved, copied, rfl, htransplanted, hcopied⟩, rfl⟩ := hend
  obtain ⟨rank', hranked', hbelow⟩ := htransplanted.ranked hkept hranked hcall rfl
    fun harg => (hreturns.args_below hkept hranked hcall harg).2
  have hstanding :=
    fun {id} (hid : copied id) => And.intro (htransplanted.offers hgiven hid) (hbelow hid)
  obtain ⟨⟨found, hfound, hkind⟩, hne, hle⟩ := hstanding hcopied
  -- The second: the visit answers with the copy, and the call is replaced by it.
  show (Visiting.onGraph ((Action.change (moved value)).perform call)).Ends _ _
  rw [ends_onGraph]
  refine perform_change ((Graph.replace_member htransplanted.kept hranked'
    (htransplanted.member? hcall) rfl hfound hkind hne hle).and_state.imp fun r g' hend => ?_)
  obtain ⟨⟨rfl, hexchanged, hranked''⟩, hstate⟩ := hend
  have hlater : v.definition.behavior.Later g' := by
    rw [hstate]
    exact (Graph.Later.refl.move (.receive callee.behavior table value)).move
      (.replace call (moved value))
  exact ⟨⟨_, rfl⟩, rfl, _, _, moved, copied, rank', g', ⟨htransplanted, hcopied, rfl,
    hranked', hstanding, hexchanged, hranked'', hlater⟩, rfl⟩

/-- **What one visit makes of a definition**: it is passed by, or a call in it is inlined. -/
inductive Visited (others : List Definition) (d : Definition) : Definition → Prop
  | passed : Visited others d d
  | inlined {callee : Definition} {args : List NodeId} {func : String} {type : ValueType}
    {value call new : NodeId} {table : Table NodeId NodeId} {between g' : Graph}
    {moved : NodeId → NodeId} {copied : NodeId → Prop} {rank : NodeId → Nat}
    (hcallee : callee ∈ others) (hname : callee.name = func)
    (hcall : d.behavior.member? call = some (.funcCall args func type))
    (hreturns : Returns callee args value table)
    (hinlined : callee.behavior.Inlined d.behavior table value call new between moved
      copied rank g') :
    Visited others d { d with behavior := g' }

/-- A visit of any member comes to one of the two, and does not fail. -/
theorem visitStep_visited {id : NodeId} {payload : Payload} (hkept : v.definition.behavior.Kept)
    (hranked : v.definition.behavior.Ranked rank)
    (hothers : ∀ callee ∈ others, callee.behavior.Kept ∧ ∃ rank, callee.behavior.Ranked rank)
    (hmember : v.definition.behavior.member? id = some payload) :
    (pass.visitor.visitStep others id).Ends v fun r v' =>
      r = .ok true ∧ Visited others v.definition v'.definition := by
  cases payload with
  | funcCall args func type =>
    cases hanswer : (others.find? fun d => decide (d.name = func)).bind fun callee =>
        (verdict v.memory.limit callee args).map (callee, ·) with
    | none =>
      rw [Visitor.visitStep, Run.ends_bind, ends_visitNode_of_hook hmember hook_funcCall,
        ends_visit (Graph.payload?_of_member? hmember)]
      simp only [hanswer]
      exact ⟨rfl, .passed⟩
    | some answer =>
      obtain ⟨callee, hcallee, hanswer⟩ := Option.bind_eq_some_iff.mp hanswer
      obtain ⟨⟨value, table⟩, hverdict, rfl⟩ := Option.map_eq_some_iff.mp hanswer
      have hin := List.mem_of_find?_eq_some hcallee
      have hname : callee.name = func := by simpa using List.find?_some hcallee
      obtain ⟨hsource, sourceRank, hsourceRanked⟩ := hothers callee hin
      refine (visitStep_inlines hkept hranked hmember hcallee hsource hsourceRanked hverdict).imp
        fun r v' hend => ?_
      obtain ⟨rfl, new, between, moved, copied, rank, g', hinlined, rfl⟩ := hend
      exact ⟨rfl, .inlined hin hname hmember (returns_of_verdict hverdict) hinlined⟩
  | _ => exact visitStep_of_none hmember rfl ⟨rfl, .passed⟩

/-- **What every visit keeps, the visit of a definition keeps**, and it does not fail. -/
theorem visitDefinition_keeps {P : Definition → Prop} {d : Definition}
    (hothers : ∀ callee ∈ others, callee.behavior.Kept ∧ ∃ rank, callee.behavior.Ranked rank)
    (hranked : ∀ {d}, P d → d.behavior.Kept ∧ ∃ rank, d.behavior.Ranked rank)
    (hstep : ∀ {d d'}, P d → Visited others d d' → P d') (h : P d) (memory : Memory) :
    (pass.visitor.visitDefinition others).Ends ⟨memory, d⟩ fun r v => r = .ok () ∧
      P v.definition := by
  refine visitDefinition_of_nodes (Q := fun r d => r = .ok () ∧ P d) rfl rfl
    (fun v => (Run.ends_count (fun v : VisitState Memory => v.memory.inlined) _ _ _ _).mpr
      ⟨⟨_, rfl⟩, rfl⟩) ?_
  -- No abort is allowed (`A`), so the induction over the visits shows at once that there is none.
  refine (visitNodes_keeps (P := fun v => P v.definition) (A := fun _ _ => False) ?_ _ h).imp
    fun r v hend => ?_
  · intro v id payload hbefore hmember
    obtain ⟨hkept, rank, hrank⟩ := hranked hbefore
    refine (visitStep_visited hkept hrank hothers hmember).imp fun r v' hend => ?_
    obtain ⟨rfl, hvisited⟩ := hend
    exact ⟨hstep hbefore hvisited, fun e he => absurd he (by simp)⟩
  · cases r with
    | ok value => exact ⟨rfl, hend.1⟩
    | error e => exact absurd rfl (hend.2 e)

/-- **What the visits of calls hand on, the visit of a definition hands on to the end**, if it
succeeds. -/
theorem visitDefinition_hands_on {P : List NodeId → VisitState Memory → Prop} {d : Definition}
    {memory : Memory}
    (hpass : ∀ {v id rest}, P (id :: rest) v →
      (∀ {payload}, v.definition.behavior.member? id = some payload →
      payload.kind ≠ .funcCall) → P rest v)
    (hcall : ∀ {v id rest args func type}, P (id :: rest) v →
      v.definition.behavior.member? id = some (.funcCall args func type) →
      (pass.visitor.visitStep others id).Ends v fun r v' => ∀ goOn, r = .ok goOn →
        goOn = true ∧ P rest v')
    (hclear : ∀ {v : VisitState Memory}, P [] v →
      P [] { v with memory := pass.visitor.clear v.memory })
    (h : P d.behavior.members ⟨memory, d⟩) :
    (pass.visitor.visitDefinition others).Ends ⟨memory, d⟩ fun r v => r = .ok () → P [] v := by
  refine visitDefinition_of_visit rfl rfl
    (fun v hend => (Run.ends_count (fun v : VisitState Memory => v.memory.inlined) _ _ _ _).mpr
      ⟨⟨_, rfl⟩, fun hok => hclear (hend hok)⟩) (visitNodes_hands_on (P := P) ?_ ?_ _ h)
  · intro v id rest hrest hnone
    exact hpass hrest fun hmember => absurd (hnone.symm.trans hmember) (by simp)
  · intro v id rest payload hrest hmember
    by_cases hkind : payload.kind = .funcCall
    · cases payload with
      | funcCall args func type => exact hcall hrest hmember
      | _ => exact Kind.noConfusion hkind
    · refine visitStep_of_none hmember (hook_of_ne hkind) fun goOn hgoOn =>
        ⟨(Except.ok.inj hgoOn).symm, ?_⟩
      refine hpass hrest fun hsome => ?_
      rwa [← Option.some.inj (hmember.symm.trans hsome)]

end Inlining

/-! ## 4. Inlining as substitution -/

/-- Reading items and looking one up may change places. -/
theorem Inlining.itemFor_mapM {α : Type} {params : List Param} {args : List NodeId} {items : List α}
    {read : NodeId → Option α} {name : String} {arg : NodeId} (hitems : args.mapM read = some items)
    (harg : itemFor params args name = some arg) : itemFor params items name = read arg := by
  obtain ⟨place, hplace, hget⟩ := Option.bind_eq_some_iff.mp harg
  have hreads := List.forall₂_iff_get.mp (mapM_eq_some_iff.mp hitems)
  obtain ⟨hlt, heq⟩ := List.getElem?_eq_some_iff.mp hget
  have hlt' : place < items.length := hreads.1 ▸ hlt
  rw [itemFor, hplace, Option.bind_some, List.getElem?_eq_getElem hlt', ← heq]
  exact (hreads.2 place hlt hlt').symm

namespace Graph

/-- **Read as a term, the new node is the returned value with the arguments in place of the
parameters**, of which none is left out. -/
theorem Inlined.term_new {callee : Definition} {g between g' : Graph} {table : Table NodeId NodeId}
    {args : List NodeId} {func : String} {type : ValueType} {value call new : NodeId}
    {moved : NodeId → NodeId} {copied : NodeId → Prop} {rank rank' sourceRank : NodeId → Nat}
    (h : Inlined callee.behavior g table value call new between moved copied rank' g')
    (hreturns : Inlining.Returns callee args value table) (hkept : g.Kept) (hranked : g.Ranked rank)
    (hcall : g.member? call = some (.funcCall args func type)) (hsource : callee.behavior.Kept)
    (hsourceRanked : callee.behavior.Ranked sourceRank) :
    ∃ terms returned, args.mapM g.term = some terms ∧ callee.behavior.term value = some returned ∧
      (∀ id name type, callee.behavior.member? id = some (.param name type) →
        ∃ term, Inlining.itemFor callee.params terms name = some term) ∧
      g'.term new = some (returned.subst (Inlining.itemFor callee.params terms)) := by
  have hargs : ∀ arg ∈ args, ∃ term, g.term arg = some term := by
    intro arg harg
    obtain ⟨payload, hmember⟩ := hkept.member?_of_mem_inputEdges hcall
      (Payload.mem_inputEdges_funcCall.mpr harg)
    exact exists_term hkept hranked hmember
  obtain ⟨terms, hterms, -⟩ := exists_mapM hargs
  obtain ⟨found, hfound, -⟩ := hreturns.offers hsource
  obtain ⟨returned, hreturned⟩ := exists_term hsource hsourceRanked hfound
  -- The callee is read with the terms of the arguments in place of its parameters, the caller as
  -- it is.  Entries are parameters; what is copied is none, and is read alike on both sides.
  have hnew : (substituting (Inlining.itemFor callee.params terms)).value callee.behavior value
      = writing.value g' new := by
    rw [← h.stands]
    refine h.value_moved hkept hranked hsource hsourceRanked ⟨_, hcall, rfl⟩
      (fun harg => (hreturns.args_below hkept hranked hcall harg).1) ?_ ?_ hfound h.root
    · intro id payload hid hentry
      cases payload with
      | param name type => exact absurd rfl (hreturns.ne_param hid hentry)
      | _ => rfl
    · intro id arg payload hentry hid
      obtain ⟨name, type, hparam, harg⟩ := hreturns.given hentry
      rw [payload?_of_member? hid] at hparam
      obtain rfl := Option.some.inj hparam
      obtain ⟨term, hterm⟩ := hargs arg (hreturns.mem_args ⟨id, hentry⟩)
      rw [Interpretation.value_eq_step hsource hsourceRanked hid]
      show some ((Inlining.itemFor callee.params terms name).getD _) = g.term arg
      rw [Inlining.itemFor_mapM hterms harg, hterm, Option.getD_some]
  rw [value_substituting hsource hsourceRanked _ hfound, hreturned] at hnew
  refine ⟨terms, returned, hterms, hreturned, fun id name type hparam => ?_, hnew.symm⟩
  obtain ⟨arg, harg⟩ := hreturns.exists_itemFor hparam
  obtain ⟨term, hterm⟩ := hargs arg (Inlining.mem_of_itemFor harg)
  exact ⟨term, (Inlining.itemFor_mapM hterms harg).trans hterm⟩

variable {context : Context} {place : Nat} {d callee : Definition} {memory : Inlining.Memory}
  {call value : NodeId} {args : List NodeId} {func : String} {type : ValueType}
  {table : Table NodeId NodeId}

/-- The graph `g'` is `g` with the call replaced by `new`: written out, what the callee returns with
the terms of the arguments in place of its parameters. -/
structure Substituted (callee : Definition) (args : List NodeId) (value call new : NodeId)
    (g g' : Graph) : Prop where
  reachable : g'.Reachable
  acyclic : g'.Acyclic
  /-- Every parameter has an argument, and the first one of a name counts. -/
  written : ∃ ret terms returned, callee.behavior.member? ret = some (.ret value) ∧
    args.mapM g.term = some terms ∧ callee.behavior.term value = some returned ∧
    (∀ id name type, callee.behavior.member? id = some (.param name type) →
      ∃ term, Inlining.itemFor callee.params terms name = some term) ∧
    g'.term new = some (returned.subst (Inlining.itemFor callee.params terms))
  /-- No parameter comes in with it. -/
  params : ∀ id name type, g'.member? id = some (.param name type) →
    g.member? id = some (.param name type)
  gone : g'.isActive call = false
  /-- The edges to the call go to the new node, and everything else stays. -/
  rest : ∀ id node, id ≠ call → g.node? id = some node → ∃ node', g'.node? id = some node' ∧
    node'.state = node.state ∧ node'.payload
      = if node.isActive then node.payload.mapEdges (swap call new) else node.payload

/-- **Inlining a call puts the arguments in place of the parameters, without capture.**  The call
is replaced by a node that, written out, is what the callee returns, written out, with the terms of
the arguments in place of its parameters, every one of which has an argument: the first parameter
of a name counts.  No parameter comes in with it, the edges to the call go to the new node, and
everything else stays, the callee included. -/
theorem Reachable.inlining_substitutes (h : d.behavior.Reachable) (hacyclic : d.behavior.Acyclic)
    (hd : context.definitions[place]? = some d) (hactive : d.behavior.isActive call = true)
    (hcall : d.behavior.payload? call = some (.funcCall args func type))
    (hcallee : ((context.definitions.eraseIdx place).find? fun other => decide (other.name = func))
      = some callee)
    (hsource : callee.behavior.Reachable) (hsourceAcyclic : callee.behavior.Acyclic)
    (hinlinable : (Inlining.inlinable memory.limit callee args ⟨memory, d⟩).result
      = .ok (some (value, table))) :
    let o := updateAt (fun others => Inlining.pass.visitor.visitNodes others [call]) place
      ⟨memory, context⟩
    ∃ g' new, o.result = .ok () ∧
      o.state.context.definitions = context.definitions.set place { d with behavior := g' } ∧
      ((o.state.context.definitions.eraseIdx place).find? fun other => decide (other.name = func))
        = some callee ∧
      Substituted callee args value call new d.behavior g' := by
  intro o
  have hkept : d.behavior.Kept := h.kept
  obtain ⟨rank, hranked⟩ := hacyclic.exists_ranked hkept
  obtain ⟨sourceRank, hsourceRanked⟩ := hsourceAcyclic.exists_ranked hsource.kept
  have hmember : d.behavior.member? call = some (.funcCall args func type) := by
    obtain ⟨payload, hmember⟩ := isActive_iff.mp hactive
    rwa [← payload?_of_member? hmember, hcall] at hmember
  have hverdict : Inlining.verdict memory.limit callee args = some (value, table) :=
    Except.ok.inj ((Inlining.ends_inlinable fun r _ => r = .ok (some (value, table))).mp hinlinable)
  have hreturns := Inlining.returns_of_verdict hverdict
  have hends : (updateAt (fun others => Inlining.pass.visitor.visitNodes others [call]) place).Ends
      ⟨memory, context⟩ fun r p => r = .ok () ∧ ∃ new between moved copied rank g',
        Inlined callee.behavior d.behavior table value call new between moved copied rank g' ∧
        p.context.definitions = context.definitions.set place { d with behavior := g' } := by
    rw [ends_updateAt hd, ends_visitNodes_cons hactive]
    refine (Inlining.visitStep_inlines (v := ⟨memory, d⟩) hkept hranked hmember hcallee hsource.kept
      hsourceRanked hverdict).imp fun r v hend => ?_
    obtain ⟨rfl, new, between, moved, copied, rank, g', hinlined, rfl⟩ := hend
    exact ⟨rfl, new, between, moved, copied, rank, g', hinlined, rfl⟩
  obtain ⟨hresult, new, between, moved, copied, rank', g', hinlined, hdefinitions⟩ := hends
  obtain ⟨ret, hret⟩ := hreturns.ret
  obtain ⟨terms, returned, hterms, hreturned, hall, hnew⟩ :=
    hinlined.term_new hreturns hkept hranked hmember hsource.kept hsourceRanked
  refine ⟨g', new, hresult, hdefinitions, ?_, ?_⟩
  · show (o.state.context.definitions.eraseIdx place).find? _ = _
    rw [hdefinitions, List.eraseIdx_set_eq, hcallee]
  exact
    { reachable := hinlined.later.reachable h
      acyclic := hinlined.stillRanked.acyclic
      written := ⟨ret, terms, returned, hret, hterms, hreturned, hall, hnew⟩
      params := fun id name type => hinlined.param_old hreturns.ne_param
      gone := by
        rw [isActive_eq_isSome_member?, hinlined.exchanged.gone]
        rfl
      rest := fun id node hne hnode => hinlined.node?_of_ne hne hnode }

/-- A function that subtracts its second parameter from its first. -/
def difference : Definition where
  name := "f"
  role := .function
  params := [⟨"x", .uint 8⟩, ⟨"y", .uint 8⟩]
  behavior :=
    ([.add (.param "x" (.uint 8)), .add (.param "y" (.uint 8)),
      .add (.builtInCall [⟨0⟩, ⟨1⟩] .sub (.uint 8)), .add (.ret ⟨2⟩)] : List Move).foldl
        (fun g move => move.after g) (empty "f")

/-- A function that subtracts its only parameter from one by calling the other.  Their parameters
share a name. -/
def complement : Definition where
  name := "g"
  role := .function
  params := [⟨"x", .uint 8⟩]
  behavior :=
    ([.add (.param "x" (.uint 8)), .add (.const (Constant.ofInt 1 (.uint 8))),
      .add (.funcCall [⟨1⟩, ⟨0⟩] "f" (.uint 8)), .add (.ret ⟨2⟩)] : List Move).foldl
        (fun g move => move.after g) (empty "g")

/-- The two of them. -/
def differenceProgram : Context := { definitions := [difference, complement] }

/-- What the pass starts with if no limit is given. -/
def defaultMemory : Inlining.Memory := ⟨some 256, 0⟩

/-- Inlined, the call is one minus the parameter of the caller. -/
theorem inlining_substitutes_difference :
    difference.behavior.Reachable ∧ difference.behavior.Acyclic ∧
    complement.behavior.Reachable ∧ complement.behavior.Acyclic ∧
    let o := updateAt (fun others => Inlining.pass.visitor.visitNodes others [⟨2⟩]) 1
      ⟨defaultMemory, differenceProgram⟩
    ∃ g' new, o.result = .ok () ∧
      o.state.context.definitions = [difference, { complement with behavior := g' }] ∧
      g'.term new = some (.node (.builtInCall [⟨0⟩, ⟨0⟩] .sub (.uint 8))
        [.node (.const (Constant.ofInt 1 (.uint 8))) [], .node (.param "x" (.uint 8)) []]) := by
  have hsource : difference.behavior.Reachable := reachable_foldl "f" _
  have hsourceAcyclic : difference.behavior.Acyclic := acyclic_of_creation (by cbv)
  have hreachable : complement.behavior.Reachable := reachable_foldl "g" _
  have hacyclic : complement.behavior.Acyclic := acyclic_of_creation (by cbv)
  have hd : differenceProgram.definitions[1]? = some complement := rfl
  have hactive : complement.behavior.isActive ⟨2⟩ = true := by cbv
  have hcall :
      complement.behavior.payload? ⟨2⟩ = some (.funcCall [⟨1⟩, ⟨0⟩] "f" (.uint 8)) := by cbv
  have hcallee : ((differenceProgram.definitions.eraseIdx 1).find? fun other =>
      decide (other.name = "f")) = some difference := by cbv
  have hinlinable : (Inlining.inlinable defaultMemory.limit difference [⟨1⟩, ⟨0⟩]
      ⟨defaultMemory, complement⟩).result = .ok (some (⟨2⟩, ⟨[(⟨1⟩, ⟨0⟩), (⟨0⟩, ⟨1⟩)]⟩)) := by cbv
  refine ⟨hsource, hsourceAcyclic, hreachable, hacyclic, ?_⟩
  obtain ⟨g', new, hresult, hdefinitions, -, hsubstituted⟩ :=
    Reachable.inlining_substitutes hreachable hacyclic hd hactive hcall hcallee hsource
      hsourceAcyclic hinlinable
  obtain ⟨ret, terms, returned, -, hterms, hreturned, -, hnew⟩ := hsubstituted.written
  have harguments : [⟨1⟩, ⟨0⟩].mapM complement.behavior.term = some
      [.node (.const (Constant.ofInt 1 (.uint 8))) [], .node (.param "x" (.uint 8)) []] := by cbv
  have hvalue : difference.behavior.term ⟨2⟩ = some (.node (.builtInCall [⟨0⟩, ⟨0⟩] .sub (.uint 8))
      [.node (.param "x" (.uint 8)) [], .node (.param "y" (.uint 8)) []]) := by cbv
  rw [harguments] at hterms
  rw [hvalue] at hreturned
  obtain rfl := Option.some.inj hterms
  obtain rfl := Option.some.inj hreturned
  exact ⟨g', new, hresult, hdefinitions, hnew⟩

end Graph

end BehaviorGraph
