/-
# Inlining to completion

A call can be left for two reasons.  No other definition may have the name, or the callee may be
one that is not inlined: `Rejected` lists why, and nothing else is a reason
(`verdict_eq_none_iff`).  Where reading may have cycles there is a third: **a call that its callee
answers with the call itself stays where it is** (`AnswersItself`).

Nodes that come in are not visited, so that nothing else is left follows from the schedule.  The
calls of a definition that had its turn are left for good (`Left`): who they name had its turn
before and does not change any more.  A call that comes in with a copy was left in the callee, for
a reason that does not depend on where it stands, since a call that reads itself is never copied.
-/
import BehaviorGraph.Proofs.Expanding
import BehaviorGraph.Proofs.Receiving

namespace BehaviorGraph

/-- What is duplicated is a call only if it was one. -/
theorem Payload.exists_of_duplicate_eq_funcCall {payload : Payload} {f : NodeId → NodeId}
    {args : List NodeId}
    {func : String} {type : ValueType} (h : payload.duplicate f = .funcCall args func type) :
    ∃ args', payload = .funcCall args' func type ∧ args = args'.map f := by
  cases payload with
  | funcCall args' func' type' => exact exists_of_mapEdges_eq_funcCall h
  | _ => exact Payload.noConfusion h

namespace Inlining

variable {limit : Option Nat} {callee : Definition} {args : List NodeId} {func : String}
  {type : ValueType} {call id : NodeId}

/-! ## 1. Callees that are not inlined -/

/-- **Why a callee is not inlined** at a call with so many arguments. -/
inductive Rejected (limit : Option Nat) (callee : Definition) (arity : Nat) : Prop
  | role (h : callee.role ≠ .function)
  | arity (h : callee.params.length ≠ arity)
  | effect {id : NodeId} {payload : Payload} (hmember : callee.behavior.member? id = some payload)
    (heffect : payload.kind.isA .sideEffect = true)
  | size {bound : Nat} (hlimit : limit = some bound) (h : bound < callee.behavior.size)
  | returns (h : ∀ ret, callee.behavior.membersOf (.exactly .ret) ≠ [ret])
  | undeclared {id : NodeId} {name : String} {type : ValueType}
    (hmember : callee.behavior.member? id = some (.param name type))
    (hnone : callee.param? name = none)

theorem exceeds_eq_true_iff :
    exceeds limit callee = true ↔ ∃ bound, limit = some bound ∧ bound < callee.behavior.size := by
  cases limit <;> simp [exceeds]

/-- A callee that is inlined has none of it. -/
theorem not_rejected {answer : NodeId × Table NodeId NodeId}
    (h : verdict limit callee args = some answer) :
    ¬ Rejected limit callee args.length := by
  obtain ⟨value, table⟩ := answer
  obtain ⟨hform, hsize, ⟨ret, hret, -⟩, -⟩ := verdict_eq_some_iff.mp h
  simp only [hasForm, Bool.and_eq_true, decide_eq_true_eq, List.isEmpty_iff] at hform
  intro hrejected
  cases hrejected with
  | role hrole => exact hrole hform.1.1
  | arity harity => exact harity hform.1.2
  | @effect id payload hmember heffect =>
    have hin : id ∈ callee.behavior.membersOf (.family .sideEffect) :=
      Graph.mem_membersOf_iff.mpr ⟨payload, hmember, heffect⟩
    rw [hform.2] at hin
    exact absurd hin (by simp)
  | size hlimit hlt => exact absurd (exceeds_eq_true_iff.mpr ⟨_, hlimit, hlt⟩) (by simp [hsize])
  | returns hmany => exact hmany ret hret
  | undeclared hmember hnone =>
    obtain ⟨arg, harg⟩ := (returns_of_verdict h).exists_itemFor hmember
    obtain ⟨place, hplace, -⟩ := Option.bind_eq_some_iff.mp harg
    obtain ⟨hlt, hname, -⟩ := List.findIdx?_eq_some_iff_getElem.mp hplace
    exact List.find?_eq_none.mp hnone _ (List.getElem_mem hlt) hname

/-- A callee that has none of it can be inlined. -/
theorem callable_of_not_rejected {arity : Nat} (h : ¬ Rejected limit callee arity) :
    callee.Callable arity where
  role := by_contra fun hrole => h (.role hrole)
  arity := by_contra fun harity => h (.arity harity)
  noEffects := List.eq_nil_iff_forall_not_mem.mpr fun id hin => by
    obtain ⟨payload, hmember, heffect⟩ := Graph.mem_membersOf_iff.mp hin
    exact h (.effect hmember heffect)
  returns := by
    by_contra hmany
    exact h (.returns fun ret hret => hmany ⟨ret, hret⟩)
  declared hmember := by
    refine Option.ne_none_iff_exists'.mp fun hnone => h (.undeclared hmember hnone)

/-- **A callee is inlined unless there is one of these reasons not to.** -/
theorem verdict_eq_none_iff :
    verdict limit callee args = none ↔ Rejected limit callee args.length := by
  refine ⟨fun hnone => ?_, fun hrejected => ?_⟩
  · by_contra hnot
    obtain ⟨value, table, hverdict⟩ := exists_verdict (callable_of_not_rejected hnot)
    obtain ⟨hform, -, hret, hbound⟩ := verdict_eq_some_iff.mp hverdict
    have hsize : exceeds limit callee = false := by
      by_contra hexceeds
      obtain ⟨bound, hlimit, hlt⟩ := exceeds_eq_true_iff.mp (Bool.eq_true_of_not_eq_false hexceeds)
      exact hnot (.size hlimit hlt)
    exact absurd (hnone.symm.trans (verdict_eq_some_iff.mpr ⟨hform, hsize, hret, hbound⟩)) (by simp)
  · cases hverdict : verdict limit callee args with
    | none => rfl
    | some answer => exact absurd hrejected (not_rejected hverdict)

/-! ## 2. Calls that are left -/

/-- **The callee leaves a call as it is.** -/
def Leaves (limit : Option Nat) (callee : Definition) (args : List NodeId) (call : NodeId) : Prop :=
  Rejected limit callee args.length ∨ AnswersItself callee args call

/-- It still does where the edges of the call lead elsewhere, as long as it stays in its place. -/
theorem Leaves.map (h : Leaves limit callee args call) {f : NodeId → NodeId} (hf : f call = call) :
    Leaves limit callee (args.map f) call :=
  h.imp (fun hrejected => by rwa [List.length_map]) fun hitself => hitself.map hf

/-- It does wherever the call is copied to, if the call does not read itself. -/
theorem Leaves.copy (h : Leaves limit callee args call) (hcall : call ∉ args) (f : NodeId → NodeId)
    (place : NodeId) : Leaves limit callee (args.map f) place :=
  h.imp (fun hrejected => by rwa [List.length_map]) fun hitself => absurd hitself.mem_args hcall

/-- **A call that is left for good**: no definition has the name, or one that had its turn leaves
the call as it is. -/
inductive Left (limit : Option Nat) (now : List Definition) (done : List Nat) (args : List NodeId)
    (func : String) (call : NodeId) : Prop
  | unknown (h : ∀ d ∈ now, d.name ≠ func)
  | settled {place : Nat} {callee : Definition} (hdone : place ∈ done)
    (hcallee : now[place]? = some callee)
    (hname : callee.name = func) (h : Leaves limit callee args call)

namespace Left

variable {now : List Definition} {done : List Nat} {place : Nat} {d d' : Definition}
  {args' : List NodeId} {call' : NodeId}

theorem imp (h : Left limit now done args func call)
    (hleaves : ∀ {callee}, Leaves limit callee args call → Leaves limit callee args' call') :
    Left limit now done args' func call' := by
  cases h with
  | unknown h => exact .unknown h
  | settled hdone hcallee hname h => exact .settled hdone hcallee hname (hleaves h)

/-- It is left when one more definition has had its turn. -/
theorem change (h : Left limit now done args func call) (hfresh : place ∉ done)
    (hd : now[place]? = some d)
    (hname : d'.name = d.name) :
      Left limit (now.set place d') (done ++ [place]) args func call := by
  cases h with
  | unknown h =>
    refine .unknown fun other hother => ?_
    rcases List.mem_or_eq_of_mem_set hother with hin | rfl
    · exact h other hin
    · rw [hname]
      exact h d (List.mem_of_getElem? hd)
  | @settled other callee hdone hcallee hname h =>
    have hne : place ≠ other := fun heq => hfresh (heq ▸ hdone)
    exact .settled (List.mem_append_left _ hdone) ((List.getElem?_set_ne hne).trans hcallee) hname h

end Left

/-- Every call of a definition is left for good. -/
def Exhausted (limit : Option Nat) (now : List Definition) (done : List Nat)
    (d : Definition) : Prop :=
  ∀ id args func type, d.behavior.member? id = some (.funcCall args func type) →
    Left limit now done args func id

/-! ## 3. One definition -/

/-- **Whom a call finds**: nobody has the name, or a definition that had its turn and whose calls
are all left. -/
inductive Finds (limit : Option Nat) (now others : List Definition) (done : List Nat)
    (func : String) : Prop
  | nobody (hothers : (others.find? fun d => decide (d.name = func)) = none)
    (h : ∀ d ∈ now, d.name ≠ func)
  | callee {place : Nat} {callee : Definition}
    (hothers : (others.find? fun d => decide (d.name = func)) = some callee)
    (hdone : place ∈ done) (hcallee : now[place]? = some callee) (hkept : callee.behavior.Kept)
    (hexhausted : Exhausted limit now done callee)

/-- **A definition under visit**: its calls are left for good, or they are to be visited and it is
known whom they find. -/
structure Unsettled (limit : Option Nat) (now others : List Definition) (done : List Nat)
    (name : String) (rest : List NodeId) (v : VisitState Memory) : Prop where
  limited : v.memory.limit = limit
  name : v.definition.name = name
  kept : v.definition.behavior.Kept
  calls : ∀ {id args func type}, v.definition.behavior.member? id
    = some (.funcCall args func type) →
    (id ∈ rest ∧ Finds limit now others done func) ∨ Left limit now done args func id

variable {now others : List Definition} {done : List Nat} {name : String} {rest : List NodeId}
  {v : VisitState Memory} {g' : Graph}

namespace Unsettled

/-- One visit less, if that was not of a call or the call is left. -/
theorem pass (h : Unsettled limit now others done name (id :: rest) v)
    (hleft : ∀ {args func type}, v.definition.behavior.member? id
      = some (.funcCall args func type) →
      Left limit now done args func id) : Unsettled limit now others done name rest v := by
  refine ⟨h.limited, h.name, h.kept, fun {other args func type} hcall => ?_⟩
  rcases h.calls hcall with ⟨hin, hfinds⟩ | hother
  · rcases List.mem_cons.mp hin with rfl | hin
    · exact .inr (hleft hcall)
    · exact .inl ⟨hin, hfinds⟩
  · exact .inr hother

/-- **A call is answered, and what comes in with the answer is left.** -/
theorem answer {place : Nat} (h : Unsettled limit now others done name (call :: rest) v)
    (hcall : v.definition.behavior.member? call = some (.funcCall args func type))
    (hdone : place ∈ done) (hcallee : now[place]? = some callee) (hname : callee.name = func)
    (hexhausted : Exhausted limit now done callee)
    (hanswered : Answered callee args call v.definition.behavior g') (hkept : g'.Kept) :
    Unsettled limit now others done name rest { v.withGraph g' with memory := v.memory.next } := by
  refine ⟨h.limited, h.name, hkept, fun {id args' func' type'} hmember => ?_⟩
  rcases hanswered hmember with ⟨found, f, hfound, heq, hstays, hitself⟩
    | ⟨origin, found, f, hfound, hfree, heq⟩
  · obtain ⟨args'', rfl, rfl⟩ := Payload.exists_of_mapEdges_eq_funcCall heq.symm
    by_cases hid : id = call
    · subst hid
      obtain ⟨rfl, rfl, rfl⟩ := Payload.funcCall.inj (Option.some.inj (hcall.symm.trans hfound))
      exact .inr (.settled hdone hcallee hname (.inr ((hitself rfl).map hstays)))
    · rcases h.calls hfound with ⟨hin, hfinds⟩ | hleft
      · exact .inl ⟨(List.mem_cons.mp hin).resolve_left hid, hfinds⟩
      · exact .inr (hleft.imp fun hleaves => hleaves.map hstays)
  · obtain ⟨args'', rfl, rfl⟩ := Payload.exists_of_duplicate_eq_funcCall heq.symm
    refine .inr ((hexhausted _ _ _ _ hfound).imp fun hleaves => hleaves.copy (fun hin => ?_) f id)
    exact hfree ⟨_, hfound, Payload.mem_inputEdges_funcCall.mpr hin⟩

end Unsettled

/-- A visit of a call that nobody answers passes it by. -/
theorem visitStep_passes {Q : Except Abort Bool → VisitState Memory → Prop}
    (hcall : v.definition.behavior.member? call = some (.funcCall args func type))
    (hanswer : ((others.find? fun d => decide (d.name = func)).bind fun callee =>
      (verdict v.memory.limit callee args).map (callee, ·)) = none) (h : Q (.ok true) v) :
    (pass.visitor.visitStep others call).Ends v Q := by
  rw [Visitor.visitStep, Run.ends_bind, ends_visitNode_of_hook hcall hook_funcCall,
    ends_visit (Graph.payload?_of_member? hcall)]
  simp only [hanswer]
  exact h

/-- **A visit of a call settles it**, as far as it succeeds. -/
theorem visitStep_settles (h : Unsettled limit now others done name (call :: rest) v)
    (hcall : v.definition.behavior.member? call = some (.funcCall args func type))
    (hfinds : Finds limit now others done func) :
    (pass.visitor.visitStep others call).Ends v fun r v' => ∀ goOn, r = .ok goOn →
      goOn = true ∧ Unsettled limit now others done name rest v' := by
  have hpass : Left limit now done args func call → ∀ goOn,
    (.ok true : Except Abort Bool) = .ok goOn →
      goOn = true ∧ Unsettled limit now others done name rest v := by
    refine fun hleft goOn hgoOn => ⟨(Except.ok.inj hgoOn).symm, h.pass fun hsame => ?_⟩
    obtain ⟨rfl, rfl, rfl⟩ := Payload.funcCall.inj (Option.some.inj (hcall.symm.trans hsame))
    exact hleft
  cases hfinds with
  | nobody hothers hunknown =>
    exact visitStep_passes hcall (by rw [hothers, Option.bind_none]) (hpass (.unknown hunknown))
  | @callee place callee hothers hdone hcallee hkept hexhausted =>
    have hname : callee.name = func := by simpa using List.find?_some hothers
    cases hverdict : verdict v.memory.limit callee args with
    | none =>
      have hrejected : Rejected limit callee args.length :=
        verdict_eq_none_iff.mp (h.limited ▸ hverdict)
      exact visitStep_passes hcall (by rw [hothers, Option.bind_some, hverdict, Option.map_none])
        (hpass (.settled hdone hcallee hname (.inl hrejected)))
    | some answer =>
      obtain ⟨value, table⟩ := answer
      refine (visitStep_call h.kept hcall hothers hkept hverdict).imp fun r v' hend goOn hgoOn => ?_
      obtain ⟨rfl, g', hkept', hanswered, rfl⟩ := hend goOn hgoOn
      exact ⟨rfl, h.answer hcall hdone hcallee hname hexhausted hanswered hkept'⟩

/-- **A definition that was visited has no call left but for good**, if everybody its calls find
had its turn. -/
theorem visitDefinition_saturates {d : Definition} (hkept : d.behavior.Kept)
    (hfinds : ∀ {id args func type}, d.behavior.member? id = some (.funcCall args func type) →
      Finds limit now others done func)
    (hleft : ∀ {id args func}, Left limit now done args func id → Finds limit now others done func)
    {memory : Memory} (hlimit : memory.limit = limit) :
    (pass.visitor.visitDefinition others).Ends ⟨memory, d⟩ fun r v => r = .ok () →
      Unsettled limit now others done d.name [] v := by
  refine visitDefinition_hands_on (P := Unsettled limit now others done d.name) ?_ ?_ ?_
    ⟨hlimit, rfl, hkept, fun hcall => .inl ⟨Graph.mem_members_iff.mpr ⟨_, hcall⟩, hfinds hcall⟩⟩
  · intro v id rest hunsettled hne
    exact hunsettled.pass fun hcall => absurd rfl (hne hcall)
  · intro v id rest args func type hunsettled hcall
    rcases hunsettled.calls hcall with ⟨-, hfound⟩ | hstays
    · exact visitStep_settles hunsettled hcall hfound
    · exact visitStep_settles hunsettled hcall (hleft hstays)
  · intro v hunsettled
    exact ⟨hunsettled.limited, hunsettled.name, hunsettled.kept, hunsettled.calls⟩

/-! ## 4. Whole programs -/

/-- Where names are distinct nobody else is found under a name. -/
theorem find?_others_cases {definitions : List Definition} {other : Nat}
    (hnames : (definitions.map Definition.name).Nodup) (hcallee : definitions[other]? = some callee)
    (hname : callee.name = func) (place : Nat) :
    ((definitions.eraseIdx place).find? fun d => decide (d.name = func)) = none ∨
    ((definitions.eraseIdx place).find? fun d => decide (d.name = func)) = some callee := by
  cases hfind : (definitions.eraseIdx place).find? fun d => decide (d.name = func) with
  | none => exact .inl rfl
  | some found =>
    obtain ⟨other', hfound⟩ :=
      List.mem_iff_getElem?.mp (List.mem_of_mem_eraseIdx (List.mem_of_find?_eq_some hfind))
    have hname' : found.name = func := by simpa using List.find?_some hfind
    obtain rfl := place_unique hnames hcallee hfound (hname.trans hname'.symm)
    exact .inr (hfound.symm.trans hcallee)

/-- Who has one is found by everybody else. -/
theorem find?_others {definitions : List Definition} {place other : Nat}
    (hnames : (definitions.map Definition.name).Nodup) (hne : other ≠ place)
    (hcallee : definitions[other]? = some callee) (hname : callee.name = func) :
    ((definitions.eraseIdx place).find? fun d => decide (d.name = func)) = some callee := by
  refine (find?_others_cases hnames hcallee hname place).resolve_left fun hnone => ?_
  have hin : callee ∈ definitions.eraseIdx place :=
    List.mem_eraseIdx_iff_getElem?.mpr ⟨other, hne, hcallee⟩
  exact absurd (decide_eq_true hname) (List.find?_eq_none.mp hnone callee hin)

/-- **Between two definitions**: those that had their turn have no calls but such as are left for
good. -/
structure Saturated (limit : Option Nat) (start : List Definition) (done : List Nat)
    (p : PassState Memory) : Prop where
  limited : p.memory.limit = limit
  halfway : Halfway (fun d₀ d => d.name = d₀.name ∧ d.behavior.Kept) start done
    p.context.definitions
  exhausted : ∀ {place d}, place ∈ done → p.context.definitions[place]? = some d →
    Exhausted limit p.context.definitions done d

namespace Saturated

variable {start : List Definition} {p : PassState Memory} {place : Nat} {d : Definition}

/-- The names are as they were. -/
theorem names (h : Saturated limit start done p) :
    List.Forall₂ (fun d₀ d => d.name = d₀.name) start p.context.definitions :=
  h.halfway.related (fun h => h.1) fun _ _ => rfl

theorem nodup (h : Saturated limit start done p) (hnames : (start.map Definition.name).Nodup) :
    (p.context.definitions.map Definition.name).Nodup := by rwa [map_name_eq h.names]

/-- Whom a call finds that had its turn. -/
theorem finds (h : Saturated limit start done p) (hnames : (start.map Definition.name).Nodup)
    (hfresh : place ∉ done) {other : Nat} (hdone : other ∈ done)
    (hcallee : p.context.definitions[other]? = some callee) (hname : callee.name = func) :
    Finds limit p.context.definitions (p.context.definitions.eraseIdx place) done func := by
  obtain ⟨callee₀, hcallee₀, -⟩ := exists_getElem?_left h.names hcallee
  have hne : other ≠ place := fun heq => hfresh (heq ▸ hdone)
  exact .callee (find?_others (h.nodup hnames) hne hcallee hname) hdone hcallee
    (h.halfway.changed hdone hcallee₀ hcallee).2 (h.exhausted hdone hcallee)

/-- Nobody is found if nobody has the name. -/
theorem finds_nobody (hnobody : ∀ d ∈ p.context.definitions, d.name ≠ func) :
    Finds limit p.context.definitions (p.context.definitions.eraseIdx place) done func :=
  .nobody (List.find?_eq_none.mpr fun d hd => by
    simpa using hnobody d (List.mem_of_mem_eraseIdx hd)) hnobody

/-- Whom a call that was there before finds, when it is the turn of its definition. -/
theorem finds_call (h : Saturated limit start done p) (hnames : (start.map Definition.name).Nodup)
    {rest : List Nat} (hschedule : schedule start .calleesFirst = .ok (done ++ place :: rest))
    (hd : start[place]? = some d)
    (hcall : d.behavior.member? id = some (.funcCall args func type)) :
    Finds limit p.context.definitions (p.context.definitions.eraseIdx place) done func := by
  by_cases hnobody : ∀ d ∈ p.context.definitions, d.name ≠ func
  · exact finds_nobody hnobody
  · push Not at hnobody
    obtain ⟨callee, hin, hname⟩ := hnobody
    obtain ⟨other, hother⟩ := List.mem_iff_getElem?.mp hin
    exact h.finds hnames (fresh_of_schedule hschedule).1
      (mem_done_of_name hnames hschedule h.names hd hcall hother hname) hother hname

/-- Whom a call finds that is left. -/
theorem finds_left (h : Saturated limit start done p) (hnames : (start.map Definition.name).Nodup)
    (hfresh : place ∉ done) (hleft : Left limit p.context.definitions done args func id) :
    Finds limit p.context.definitions (p.context.definitions.eraseIdx place) done func := by
  cases hleft with
  | unknown hnobody => exact finds_nobody hnobody
  | settled hdone hcallee hname _ => exact h.finds hnames hfresh hdone hcallee hname

/-- **One more definition is visited.** -/
theorem step (h : Saturated limit start done p) (hkept : ∀ d ∈ start, d.behavior.Kept)
    (hnames : (start.map Definition.name).Nodup) {rest : List Nat}
    (hschedule : schedule start .calleesFirst = .ok (done ++ place :: rest)) :
    (updateAt pass.visitor.visitDefinition place).Ends p fun r p' => r = .ok () →
      Saturated limit start (done ++ [place]) p' := by
  obtain ⟨hfresh, hlt⟩ := fresh_of_schedule hschedule
  have hd : start[place]? = some start[place] := List.getElem?_eq_getElem hlt
  have hnow := (h.halfway.waiting hfresh).trans hd
  rw [ends_updateAt hnow]
  refine (visitDefinition_saturates (hkept _ (List.getElem_mem hlt))
    (h.finds_call hnames hschedule hd)
    (h.finds_left hnames hfresh) h.limited).imp fun r v hend hok => ?_
  have hsettled := hend hok
  refine ⟨hsettled.limited, h.halfway.change hd ⟨hsettled.name, hsettled.kept⟩, ?_⟩
  intro other d hdone hother id args func type hcall
  have hstays : Left limit p.context.definitions done args func id := by
    rcases List.mem_append.mp hdone with hin | hin
    · have hne : place ≠ other := fun heq => hfresh (heq ▸ hin)
      exact h.exhausted hin ((List.getElem?_set_ne hne).symm.trans hother) _ _ _ _ hcall
    · obtain rfl := List.mem_singleton.mp hin
      obtain rfl := Option.some.inj
        ((List.getElem?_set_self (List.getElem?_eq_some_iff.mp hnow).1).symm.trans hother)
      exact (hsettled.calls hcall).resolve_left fun h => absurd h.1 (by simp)
  exact hstays.change hfresh hnow hsettled.name

end Saturated

variable {context : Context} {memory : Memory}

/-- **A pass that succeeds leaves no call but for good.** -/
theorem run_exhausts {start : Memory} (hkept : ∀ d ∈ context.definitions, d.behavior.Kept)
    (hnames : (context.definitions.map Definition.name).Nodup)
    (hinit : (init context).result = .ok start) :
    pass.run.Ends context fun r context' => ∀ memory, r = .ok memory →
      (context'.definitions.map Definition.name).Nodup ∧
      ∃ done, ∀ d ∈ context'.definitions, Exhausted start.limit context'.definitions done d := by
  have hstarts : pass.init.Ends context fun r context' => r = .ok start ∧ context' = context :=
    ⟨hinit, init_keeps context⟩
  rw [Pass.ends_run hstarts rfl]
  refine (updateAll_hands_on (P := Saturated start.limit context.definitions)
    (fun hschedule h => h.step hkept hnames hschedule)
    ⟨rfl, .refl _ _, fun hin => absurd hin (by simp)⟩).imp fun r p hend memory hok => ?_
  cases r with
  | error e => exact absurd hok (by simp [Except.map])
  | ok value =>
    obtain ⟨places, hschedule, h⟩ := hend rfl
    refine ⟨h.nodup hnames, places, fun d hd => ?_⟩
    obtain ⟨place, hplace⟩ := List.mem_iff_getElem?.mp hd
    obtain ⟨d₀, hd₀, -⟩ := exists_getElem?_left h.names hplace
    refine h.exhausted ((schedule_perm hschedule).mem_iff.mpr (List.mem_range.mpr ?_)) hplace
    exact (List.getElem?_eq_some_iff.mp hd₀).1

/-- **Inlining to completion.**  After a pass that succeeded every call, whether it was there
before or came in with a copy, names no other definition, or one that is not inlined for a reason
that is listed, or one that answers the call with the call itself. -/
theorem run_saturates (hreachable : ∀ d ∈ context.definitions, d.behavior.Reachable)
    (hnames : (context.definitions.map Definition.name).Nodup)
    (hok : (pass.run context).result = .ok memory) :
    ∃ start, (init context).result = .ok start ∧
      let definitions := (pass.run context).state.definitions
      ∀ place d id args func type, definitions[place]? = some d → d.behavior.isActive id = true →
        d.behavior.payload? id = some (.funcCall args func type) →
        let found := (definitions.eraseIdx place).find? fun other => decide (other.name = func)
        found = none ∨ ∃ callee, found = some callee ∧
          ((∀ v, (inlinable start.limit callee args v).result = .ok none) ∧
              Rejected start.limit callee args.length ∨
            AnswersItself callee args id) := by
  cases hinit : (init context).result with
  | error e =>
    have hfails : pass.init.Ends context fun r context' => r = .error e ∧ context' = context :=
      ⟨hinit, init_keeps context⟩
    have hrun : (pass.run context).result = .error e :=
      (Pass.ends_run_of_error hfails fun r _ => r = .error e).mpr rfl
    exact absurd (hok.symm.trans hrun) (by simp)
  | ok start =>
    refine ⟨start, rfl, fun place d id args func type hd hactive hpayload => ?_⟩
    obtain ⟨hnames', done, hexhausted⟩ :=
      run_exhausts (fun d hd => (hreachable d hd).kept) hnames hinit memory hok
    have hcall : d.behavior.member? id = some (.funcCall args func type) := by
      obtain ⟨payload, hmember⟩ := Graph.isActive_iff.mp hactive
      rwa [← Graph.payload?_of_member? hmember, hpayload] at hmember
    cases hexhausted d (List.mem_of_getElem? hd) _ _ _ _ hcall with
    | unknown hnobody =>
      refine .inl (List.find?_eq_none.mpr fun other hother => ?_)
      simpa using hnobody other (List.mem_of_mem_eraseIdx hother)
    | @settled other callee hdone hcallee hname hleaves =>
      refine (find?_others_cases hnames' hcallee hname place).imp_right fun hfound =>
        ⟨callee, hfound, hleaves.imp_left fun hrejected => ⟨fun v => ?_, hrejected⟩⟩
      have hnone := verdict_eq_none_iff.mpr hrejected
      exact (ends_inlinable fun r _ => r = .ok none).mpr (by rw [hnone])

/-- A function that adds one to its parameter. -/
def increment : Definition where
  name := "f"
  role := .function
  params := [⟨"x", .uint 8⟩]
  behavior :=
    ([.add (.param "x" (.uint 8)), .add (.const (Constant.ofInt 1 (.uint 8))),
      .add (.builtInCall [⟨0⟩, ⟨1⟩] .add (.uint 8)), .add (.ret ⟨2⟩), .add (.start (some ⟨3⟩))] :
      List Move).foldl (fun g move => move.after g) (.empty "f")

/-- A function that does what another one does. -/
def forwarding (name callee : String) : Definition where
  name := name
  role := .function
  params := [⟨"x", .uint 8⟩]
  behavior :=
    ([.add (.param "x" (.uint 8)), .add (.funcCall [⟨0⟩] callee (.uint 8)), .add (.ret ⟨1⟩),
      .add (.start (some ⟨2⟩))] : List Move).foldl (fun g move => move.after g) (.empty name)

/-- Three functions, each of which calls the one before, and a limit that the first exceeds. -/
def nested : Context :=
  ⟨[increment, forwarding "g" "f", forwarding "h" "g"], ["function-inliner:max-nodes=4"]⟩

/-- The call of the third function is inlined, and what comes in is a call that is too large to be.
-/
theorem run_saturates_nested :
    (∀ d ∈ nested.definitions, d.behavior.Reachable) ∧
      (nested.definitions.map Definition.name).Nodup ∧
    (pass.run nested).result = .ok ⟨some 4, 0⟩ ∧
    ∃ d, (pass.run nested).state.definitions[2]? = some d ∧ d.behavior.isActive ⟨4⟩ = true ∧
      d.behavior.payload? ⟨4⟩ = some (.funcCall [⟨0⟩] "f" (.uint 8)) ∧
      Rejected (some 4) increment 1 := by
  have hreachable : ∀ d ∈ nested.definitions, d.behavior.Reachable := by
    simp only [nested, List.forall_mem_cons]
    exact ⟨Graph.reachable_foldl "f" _, Graph.reachable_foldl "g" _,
      Graph.reachable_foldl "h" _, by simp⟩
  have hnames : (nested.definitions.map Definition.name).Nodup := by decide
  obtain ⟨o, hrun, hresult, d, hd, hactive, hcall, hcallee⟩ : ∃ o, pass.run nested = o ∧
      o.result = .ok ⟨some 4, 0⟩ ∧ ∃ d, o.state.definitions[2]? = some d ∧
        d.behavior.isActive ⟨4⟩ = true ∧
        d.behavior.payload? ⟨4⟩ = some (.funcCall [⟨0⟩] "f" (.uint 8)) ∧
        ((o.state.definitions.eraseIdx 2).find? fun other => decide (other.name = "f"))
          = some increment := ⟨_, by cbv, rfl, _, rfl, by cbv, by cbv, by cbv⟩
  have hok : (pass.run nested).result = .ok ⟨some 4, 0⟩ := hrun ▸ hresult
  have hstart : (init nested).result = .ok ⟨some 4, 0⟩ := by cbv
  obtain ⟨start, hinit, hall⟩ := run_saturates hreachable hnames hok
  obtain rfl := Except.ok.inj (hstart.symm.trans hinit)
  rw [hrun] at hall ⊢
  refine ⟨hreachable, hnames, hresult, d, hd, hactive, hcall, ?_⟩
  rcases hall 2 d ⟨4⟩ _ _ _ hd hactive hcall with hnone | ⟨callee, hfound, hleft⟩
  · exact absurd (hnone.symm.trans hcallee) (by simp)
  · obtain rfl := Option.some.inj (hfound.symm.trans hcallee)
    exact (hleft.resolve_right fun hitself => absurd hitself.mem_args (by simp)).2

/-- A function that returns its parameter. -/
def identity : Definition where
  name := "f"
  role := .function
  params := [⟨"x", .uint 8⟩]
  behavior :=
    ([.add (.param "x" (.uint 8)), .add (.ret ⟨0⟩), .add (.start (some ⟨1⟩))] : List Move).foldl
      (fun g move => move.after g) (.empty "f")

/-- An instruction that writes what the function returns for what it returns. -/
def feedback : Definition where
  name := "i"
  role := .instruction
  behavior :=
    ([.add (.readReg "A" (.uint 8)), .add (.funcCall [⟨0⟩] "f" (.uint 8)),
      .replaceInput ⟨1⟩ ⟨0⟩ ⟨1⟩, .add (.writeReg ⟨1⟩ none "B"), .add (.instrEnd [⟨2⟩]),
        .add (.start (some ⟨3⟩))] :
      List Move).foldl (fun g move => move.after g) (.empty "i")

/-- Both of them. -/
def circular : Context := { definitions := [identity, feedback] }

/-- **A call can be left that there is no reason not to inline.** -/
theorem run_leaves_circular :
    (∀ d ∈ circular.definitions, d.behavior.Reachable) ∧
      (circular.definitions.map Definition.name).Nodup ∧
    (pass.run circular).result = .ok ⟨some 256, 0⟩ ∧ (init circular).result = .ok ⟨some 256, 0⟩ ∧
    ¬ ∀ place d id args func type, (pass.run circular).state.definitions[place]? = some d →
      d.behavior.isActive id = true → d.behavior.payload? id = some (.funcCall args func type) →
      let found := ((pass.run circular).state.definitions.eraseIdx place).find? fun other =>
        decide (other.name = func)
      found = none ∨ ∃ callee, found = some callee ∧ Rejected (some 256) callee args.length := by
  have hreachable : ∀ d ∈ circular.definitions, d.behavior.Reachable := by
    simp only [circular, List.forall_mem_cons]
    exact ⟨Graph.reachable_foldl "f" _, Graph.reachable_foldl "i" _, by simp⟩
  obtain ⟨o, hrun, hresult, hd, hcallee⟩ : ∃ o, pass.run circular = o ∧
    o.result = .ok ⟨some 256, 0⟩ ∧
      o.state.definitions[1]? = some feedback ∧
      ((o.state.definitions.eraseIdx 1).find? fun other => decide (other.name = "f"))
        = some identity :=
    ⟨_, by cbv, rfl, by cbv, by cbv⟩
  have hverdict : verdict (some 256) identity [⟨1⟩] = some (⟨0⟩, ⟨[(⟨0⟩, ⟨1⟩)]⟩) := by cbv
  rw [hrun]
  refine ⟨hreachable, by decide, hresult, by cbv, fun hall => ?_⟩
  rcases hall 1 feedback ⟨1⟩ [⟨1⟩] "f" (.uint 8) hd (by cbv) (by cbv) with
    hnone | ⟨callee, hfound, hrejected⟩
  · exact absurd (hnone.symm.trans hcallee) (by simp)
  · obtain rfl := Option.some.inj (hfound.symm.trans hcallee)
    exact not_rejected hverdict hrejected

end Inlining

end BehaviorGraph
