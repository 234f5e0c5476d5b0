/-
# What comes in for a call

Inlining is known for graphs in which reading has no cycles; here it is followed in any graph, as
far as it succeeds.  Then nothing that was copied reads itself, and **every member that comes in
stands for a node that was to be copied** (`copyInto_newcomers`).

The value that is returned takes the place of the call, unless it is the call.  That can only be if
the callee returns one of its parameters and the call is given for it, so that it reads itself
(`AnswersItself`); replacing it by itself leaves everything as it is.  In every other case the call
goes and the edges to it move (`visitStep_call`).
-/
import BehaviorGraph.Proofs.Importing
import BehaviorGraph.Proofs.Inlining

namespace BehaviorGraph

namespace Graph

variable {source g g' : Graph} {table : Table NodeId NodeId} {id root place old new : NodeId}
  {payload found : Payload}

/-! ## 1. Newcomers -/

namespace Copying

variable {c : Copying}

/-- What attaching the first copy asks for are copies and entries that were given. -/
theorem Duplicated.origin_of_asksFor (h : Duplicated source g table root c)
    (hserves : Serves source g table) (hroot : ∃ place, c.transfer.copies.get? root = some place)
    (hasks : c.transfer.target.AsksFor (c.copyOf root) id) :
    ∃ origin, Relation.ReflTransGen (source.Follows table) root origin ∧ c.copyOf origin = id := by
  induction hasks with
  | refl => exact ⟨root, .refl, rfl⟩
  | @tail user target _ hpulls ih =>
    obtain ⟨origin, hpath, rfl⟩ := ih
    obtain ⟨place, hplace⟩ := h.exists_entry hroot hpath
    rw [copyOf_of_get? hplace] at hpulls
    cases hentry : table.get? origin with
    | some given =>
      obtain rfl := Option.some.inj ((h.given hentry).symm.trans hplace)
      obtain ⟨found, hfound, -⟩ := hserves hentry
      exact absurd (h.member? hfound) fun hmember => hpulls.not_member hmember
    | none =>
      obtain ⟨payload, hmember, hnode, -⟩ := (h.copied hplace hentry).copy
      obtain ⟨node, hnode', -, hin⟩ := hpulls
      obtain rfl := Option.some.inj (hnode.symm.trans hnode')
      rw [Payload.edges_duplicate] at hin
      obtain ⟨read, hread, rfl⟩ := List.mem_map.mp hin
      exact ⟨read, hpath.tail ⟨⟨payload, hmember, hread⟩, hentry⟩, rfl⟩

/-- **The closure of the first copy are the copies.** -/
theorem Duplicated.origin_of_inClosure (h : Duplicated source g table root c)
    (hserves : Serves source g table) (hroot : ∃ place, c.transfer.copies.get? root = some place)
    (hin : c.transfer.target.InClosure (c.copyOf root) id) :
    ∃ origin, source.Behind table root origin ∧ c.copyOf origin = id := by
  obtain ⟨origin, hpath, rfl⟩ := h.origin_of_asksFor hserves hroot hin.1
  refine ⟨origin, ⟨?_, hpath⟩, rfl⟩
  cases hentry : table.get? origin with
  | none => rfl
  | some given =>
    obtain ⟨found, hfound, -⟩ := hserves hentry
    obtain ⟨node, hnode, hstate, -⟩ := member?_eq_some_iff.mp (h.member? hfound)
    rw [copyOf_of_get? (h.given hentry)] at hin
    have hdetached := hin.state hnode
    rw [hstate] at hdetached
    exact absurd hdetached (by simp)

/-- Copies are detached, so the members are those of before. -/
theorem Duplicated.member?_of_target (h : Duplicated source g table root c)
    (hmember : c.transfer.target.member? id = some payload) : g.member? id = some payload := by
  obtain ⟨node, hnode, hstate, rfl⟩ := member?_eq_some_iff.mp hmember
  by_cases hold : id.index < g.nodes.size
  · exact member?_eq_some_iff.mpr ⟨node, by rw [← h.old hold, hnode], hstate, rfl⟩
  · obtain ⟨origin, hplace, hentry⟩ := h.covered (Nat.not_lt.mp hold) (lt_size_of_node? hnode)
    obtain ⟨payload, -, hcopy, -⟩ := (h.copied hplace hentry).copy
    rw [← Option.some.inj (hcopy.symm.trans hnode)] at hstate
    exact absurd hstate (by simp)

end Copying

/-- Who became a member stands for itself. -/
theorem Resolves.rep_of_newcomer {rep : NodeId → NodeId} (h : Resolves g root g' rep)
    (hin : g.InClosure root id) (hmember : g'.member? id = some payload) : rep id = id := by
  obtain ⟨node, hnode, -⟩ := hin.2
  cases hkind : node.kind.isUnique with
  | false => exact h.plain hin hnode hkind
  | true =>
    by_contra hne
    obtain ⟨gone, hgone, hdeleted⟩ := (h.unique hin hnode hkind).2 hne
    obtain ⟨node', hnode', hstate, -⟩ := member?_eq_some_iff.mp hmember
    rw [Option.some.inj (hnode'.symm.trans hgone), hdeleted] at hstate
    exact absurd hstate (by simp)

/-- **Every member that comes in stands for a node that was to be copied.** -/
theorem copyInto_newcomers {t : Transfer} {answer : NodeId} (hsource : source.Kept)
    (hroot : source.member? root = some found) (htarget : t.target.Kept)
    (hserves : Copying.Serves source t.target t.copies)
    (hok : (copyInto source root t).result = .ok answer)
    (hmember : (copyInto source root t).state.target.member? id = some payload)
    (hnone : t.target.member? id = none) :
    ∃ origin, source.Behind t.copies root origin ∧
      (copyInto source root t).state.copies.get? origin = some id := by
  have hview : Copying.Shows (fun _ => source) source t.target := fun _ _ _ hmember => hmember
  have hwalk := Copying.walk_duplicates hview hsource hroot
    (Copying.Duplicating.start source t.target t.copies root (Nat.le_refl _))
  have hkept := Copying.walk_pushes (P := Kept) (fun _ payload hkept => hkept.push payload)
    (fun _ => source)
    source.nodes.size [.enter root] ⟨t, []⟩ htarget
  unfold copyInto at hok hmember ⊢
  cases hend : Copying.walk (fun _ => source) source.nodes.size [.enter root] ⟨t, []⟩ with
  | mk result c reports =>
    rw [hend] at hwalk hkept hok hmember
    rcases hwalk with ⟨rfl, hdone, place, hplace⟩ | ⟨id, rfl, -⟩
    · have hcopyOf : (c.transfer.copies.get? root).getD root = c.copyOf root := rfl
      simp only [hcopyOf] at hok hmember ⊢
      cases hattach : attachResolving (c.copyOf root) c.transfer.target with
      | mk result target later =>
        rw [hattach] at hok hmember
        cases result with
        | error fault => exact absurd hok (by simp)
        | ok resolved =>
          have hrep := attachResolving_resolves hkept
            (show (attachResolving (c.copyOf root) c.transfer.target).result
              = .ok resolved by rw [hattach])
          rw [hattach] at hrep
          rcases hrep.newcomers hmember with hold | hin
          · exact absurd ((hdone.member?_of_target hold).symm.trans hnone) (by simp)
          · obtain ⟨origin, hbehind, rfl⟩ := hdone.origin_of_inClosure hserves ⟨place, hplace⟩ hin
            obtain ⟨entry, hentry⟩ := hdone.exists_entry ⟨place, hplace⟩ hbehind.2
            refine ⟨origin, hbehind, ?_⟩
            simp only [Table.get?_mapValues, hentry, Option.map_some,
              ← Copying.copyOf_of_get? hentry]
            exact congrArg some (hrep.rep_of_newcomer hin hmember)
    · exact absurd hok (by simp)

/-- **Every member of `g'` was there before, or is a copy of a node of `source` that does not read
itself.** -/
def Enlarged (source g : Graph) (image : NodeId → NodeId) (g' : Graph) : Prop :=
  ∀ {id payload}, g'.member? id = some payload → g.member? id = some payload ∨
    ∃ origin found, source.member? origin = some found ∧ ¬ source.ReadsFrom origin origin ∧
      payload = found.duplicate image

/-- **What an import that succeeds leaves behind.** -/
theorem copyInto_grafts {t : Transfer} (hsource : source.Kept)
    (hroot : source.member? root = some found)
    (htarget : t.target.Kept) (hserves : Copying.Serves source t.target t.copies) :
    (copyInto source root).Ends t fun r t' => t'.target.Kept ∧ ∀ answer, r = .ok answer →
      ∃ image, answer = image root ∧ Received source t.target t.copies root image t'.target ∧
        Enlarged source t.target image t'.target := by
  refine ⟨htarget.after (.receive source t.copies root), fun answer hok => ?_⟩
  rcases copyInto_receives hsource hroot htarget hserves with
    ⟨id, hfault, -⟩ | ⟨hnone, image, hresult, hentries, hreceived⟩
  · exact absurd (hok.symm.trans hfault) (by simp)
  · refine ⟨image, Except.ok.inj (hok.symm.trans hresult), hreceived,
      fun {id payload} hmember => ?_⟩
    cases hbefore : t.target.member? id with
    | some payload' => exact .inl ((hreceived.old hbefore).symm.trans hmember)
    | none =>
      obtain ⟨origin, hbehind, hentry⟩ :=
        copyInto_newcomers hsource hroot htarget hserves hok hmember hbefore
      obtain rfl := Option.some.inj ((hentries (.inl hbehind.2)).symm.trans hentry)
      obtain ⟨payload', hpayload'⟩ := hsource.member?_of_follows hroot hbehind.2
      have hfree : ¬ source.ReadsFrom origin origin :=
        fun hreads => hnone ⟨origin, hbehind, .single ⟨hreads, hbehind.1⟩⟩
      exact .inr ⟨origin, payload', hpayload', hfree,
        Option.some.inj (hmember.symm.trans (hreceived.copied hbehind hpayload'))⟩

/-- **What a replacement by a member that succeeds leaves behind**: nothing has changed if the two
are the same; otherwise the edges have moved, and the old node is gone. -/
theorem replace_grafts (h : g.Kept) (hnew : g.member? new = some found) :
    (replace old new).Ends g fun r g' => g'.Kept ∧ ∀ member, r = .ok member →
      (new = old ∧ g' = g) ∨
      (new ≠ old ∧ ∀ id, g'.member? id
        = if id = old then none else (g.member? id).map (Payload.mapEdges (swap old new))) := by
  obtain ⟨hresult, hstate⟩ := attach_of_isActive (isActive_iff.mpr ⟨found, hnew⟩)
  have hkept := replace_preserves old new g h
  have hends := replace_ends h old new
  unfold Run.Ends at hkept hends ⊢
  generalize (replace old new g).result = r at hends ⊢
  generalize (replace old new g).state = g' at hkept hends ⊢
  refine ⟨hkept, fun member hok => ?_⟩
  cases hends with
  | inactive | unattached | reached | misfit => exact absurd hok (by simp)
  | same hold hattached =>
    exact .inl ⟨Except.ok.inj (hresult.symm.trans hattached), hstate⟩
  | @moved answer payload found' hold hattached hne _ hfound _ =>
    obtain rfl := Except.ok.inj (hresult.symm.trans hattached)
    rw [hstate]
    obtain ⟨node, hnode, -, -⟩ := member?_eq_some_iff.mp hold
    refine .inr ⟨hne, fun id => ?_⟩
    rw [member?_withdraw, member?_redirect h hne hnode]

end Graph

/-! ## 2. Calls that answer themselves -/

namespace Inlining

variable {others : List Definition} {callee : Definition} {args : List NodeId} {func : String}
  {type : ValueType} {call value : NodeId} {table : Table NodeId NodeId} {limit : Option Nat}
  {v : VisitState Memory}

/-- **A callee answers a call with the call itself**: it returns one of its parameters, and the
call is what is given for that. -/
def AnswersItself (callee : Definition) (args : List NodeId) (call : NodeId) : Prop :=
  ∃ ret value name type, callee.behavior.membersOf (.exactly .ret) = [ret] ∧
    callee.behavior.member? ret = some (.ret value) ∧
    callee.behavior.member? value = some (.param name type) ∧
    itemFor callee.params args name = some call

/-- Items may be renamed before one is looked up. -/
theorem itemFor_map {α β : Type} (params : List Param) (items : List α) (f : α → β)
    (name : String) :
    itemFor params (items.map f) name = (itemFor params items name).map f := by
  unfold itemFor
  cases params.findIdx? fun param => decide (param.name = name) with
  | none => rfl
  | some place => simp only [Option.bind_some, List.getElem?_map]

/-- A call that stays where it is still answers itself. -/
theorem AnswersItself.map (h : AnswersItself callee args call) {f : NodeId → NodeId}
    (hf : f call = call) :
    AnswersItself callee (args.map f) call := by
  obtain ⟨ret, value, name, type, hret, hreturns, hparam, hitem⟩ := h
  exact ⟨ret, value, name, type, hret, hreturns,
    hparam, by rw [itemFor_map, hitem, Option.map_some, hf]⟩

/-- Such a call reads itself. -/
theorem AnswersItself.mem_args (h : AnswersItself callee args call) : call ∈ args := by
  obtain ⟨_, _, _, _, -, -, -, hitem⟩ := h
  exact mem_of_itemFor hitem

/-- The arguments of a call serve where the parameters were read. -/
theorem Returns.serves {g : Graph} (h : Returns callee args value table) (hkept : g.Kept)
    (hcall : g.member? call = some (.funcCall args func type)) (hsource : callee.behavior.Kept) :
    Graph.Copying.Serves callee.behavior g table := by
  intro id arg hentry
  obtain ⟨name, paramType, hparam, hitem⟩ := h.given hentry
  obtain ⟨found, hfound, hvalue⟩ := hkept.value_of_mem_inputEdges hcall rfl
    (Payload.mem_inputEdges_funcCall.mpr (mem_of_itemFor hitem))
  refine ⟨found, hfound, fun {user payload slot} huser hslot htarget => ?_⟩
  -- What takes a parameter takes any value.
  obtain ⟨read, hread, hfamily⟩ := (Graph.fills_some htarget).mp
    (hsource.filled huser slot (List.mem_append_left _ hslot))
  rw [Graph.payload?_of_member? hread] at hparam
  obtain rfl := Option.some.inj hparam
  rw [Kind.family_eq_value rfl hfamily (Payload.family_of_mem_slots (List.mem_append_left _ hslot))]
  exact hvalue

/-! ## 3. The visit of a call -/

/-- **What the members are after a call was answered by a callee.**  They were there before, and
the call itself is among them only if it answers itself; or they are copies of nodes of the callee
that do not read themselves. -/
def Answered (callee : Definition) (args : List NodeId) (call : NodeId) (g g' : Graph) : Prop :=
  ∀ {id payload}, g'.member? id = some payload →
    (∃ found f, g.member? id = some found ∧ payload = found.mapEdges f ∧ f id = id ∧
      (id = call → AnswersItself callee args call)) ∨
    ∃ origin found f, callee.behavior.member? origin = some found ∧
      ¬ callee.behavior.ReadsFrom origin origin ∧ payload = found.duplicate f

/-- Performing a change goes as the replacement goes. -/
theorem ends_perform_change {g : Graph} {old new : NodeId} (Q : Except Abort Bool → Graph → Prop) :
    ((Action.change new).perform old).Ends g Q
      ↔ (Graph.replace old new).Ends g fun r g' =>
        Q ((r.mapError Abort.ofFault).map fun _ => true) g' := by
  rw [Action.perform, Run.ends_bind, ends_editing]
  refine Run.ends_congr fun r g' => ?_
  cases r <;> exact Iff.rfl

variable {g between g' : Graph} {image : NodeId → NodeId}

/-- What takes the place of the call is a member. -/
theorem exists_image_root (hreceived : Graph.Received callee.behavior g table value image between)
    (hserves : Graph.Copying.Serves callee.behavior g table) {returned : Payload}
    (hroot : callee.behavior.member? value = some returned) :
    ∃ found, between.member? (image value) = some found := by
  cases hentry : table.get? value with
  | some given =>
    obtain ⟨found, hfound, -⟩ := hserves hentry
    exact ⟨found, by rw [hreceived.given hentry, hreceived.old hfound]⟩
  | none => exact ⟨_, hreceived.copied ⟨hentry, .refl⟩ hroot⟩

/-- **Only an argument can be the call itself**: a copy has a place of its own, or is unique. -/
theorem get?_of_image_root (hreceived : Graph.Received callee.behavior g table value image between)
    {returned : Payload} (hroot : callee.behavior.member? value = some returned)
    (hcall : g.member? call = some (.funcCall args func type)) (hsame : image value = call) :
    table.get? value = some call := by
  cases hentry : table.get? value with
  | some given => rw [← hsame, hreceived.given hentry]
  | none =>
    have hcopy := hreceived.copied ⟨hentry, .refl⟩ hroot
    rw [hsame, hreceived.old hcall] at hcopy
    have hkind := congrArg Payload.kind (Option.some.inj hcopy)
    rw [Payload.kind_duplicate] at hkind
    have hfresh := hreceived.fresh ⟨hentry, .refl⟩ hroot (by rw [← hkind]; rfl)
    obtain ⟨node, hnode, -⟩ := Graph.member?_eq_some_iff.mp hcall
    rw [hsame] at hfresh
    exact absurd (Graph.lt_size_of_node? hnode) (Nat.not_lt.mpr hfresh)

/-- **If what is returned is the call itself, the callee answers it with itself.** -/
theorem answersItself_of_image_root (hsource : callee.behavior.Kept)
    (hverdict : verdict limit callee args = some (value, table))
    (hreceived : Graph.Received callee.behavior g table value image between)
    (hcall : g.member? call = some (.funcCall args func type)) (hsame : image value = call) :
    AnswersItself callee args call := by
  have hreturns := returns_of_verdict hverdict
  obtain ⟨-, -, ⟨ret, hret, hvalue⟩, -⟩ := verdict_eq_some_iff.mp hverdict
  obtain ⟨returned, hroot, -⟩ := hreturns.offers hsource
  obtain ⟨name, paramType, hparam, hitem⟩ :=
    hreturns.given (get?_of_image_root hreceived hroot hcall hsame)
  rw [Graph.payload?_of_member? hroot] at hparam
  obtain rfl := Option.some.inj hparam
  exact ⟨ret, value, name, paramType, hret, hvalue, hroot, hitem⟩

/-- What was copied for a call that stays. -/
theorem Answered.same (h : Graph.Enlarged callee.behavior g image between)
    (hitself : AnswersItself callee args call) : Answered callee args call g between := by
  intro id payload hmember
  rcases h hmember with hold | ⟨origin, found, hfound, hfree, rfl⟩
  · exact .inl ⟨payload, fun id => id, hold, (Payload.mapEdges_eq_self fun _ _ => rfl).symm, rfl,
      fun _ => hitself⟩
  · exact .inr ⟨origin, found, image, hfound, hfree, rfl⟩

/-- What was copied for a call that goes. -/
theorem Answered.moved {new : NodeId} (h : Graph.Enlarged callee.behavior g image between)
    (hmembers : ∀ id, g'.member? id
      = if id = call then none else (between.member? id).map (Payload.mapEdges (swap call new))) :
    Answered callee args call g g' := by
  intro id payload hmember
  have hother : id ≠ call := by
    rintro rfl
    rw [hmembers, if_pos rfl] at hmember
    exact absurd hmember (by simp)
  rw [hmembers, if_neg hother] at hmember
  obtain ⟨payload, hbetween, rfl⟩ := Option.map_eq_some_iff.mp hmember
  rcases h hbetween with hold | ⟨origin, found, hfound, hfree, rfl⟩
  · exact .inl ⟨payload, _, hold, rfl, swap_of_ne hother, fun heq => absurd heq hother⟩
  · exact .inr ⟨origin, found, _, hfound, hfree, Payload.mapEdges_duplicate _ _ _⟩

/-- **The visit of a call whose callee can be inlined**, as far as it succeeds, whatever reads
what. -/
theorem visitStep_call (hkept : v.definition.behavior.Kept)
    (hcall : v.definition.behavior.member? call = some (.funcCall args func type))
    (hcallee : (others.find? fun d => decide (d.name = func)) = some callee)
    (hsource : callee.behavior.Kept)
    (hverdict : verdict v.memory.limit callee args = some (value, table)) :
    (pass.visitor.visitStep others call).Ends v fun r v' => ∀ goOn, r = .ok goOn → goOn = true ∧
      ∃ g', g'.Kept ∧ Answered callee args call v.definition.behavior g' ∧
        v' = { v.withGraph g' with memory := v.memory.next } := by
  have hreturns := returns_of_verdict hverdict
  have hserves : Graph.Copying.Serves callee.behavior v.definition.behavior table :=
    hreturns.serves hkept hcall hsource
  obtain ⟨returned, hroot, -⟩ := hreturns.offers hsource
  rw [Visitor.visitStep, Run.ends_bind, ends_visitNode_of_hook hcall hook_funcCall,
    ends_visit (Graph.payload?_of_member? hcall)]
  simp only [hcallee, hverdict, Option.bind_some, Option.map_some]
  rw [ends_copyIn]
  refine (Graph.copyInto_grafts (t := ⟨v.definition.behavior, table⟩) hsource hroot
    hkept hserves).imp fun r t hend => ?_
  obtain ⟨hkept', hcopied⟩ := hend
  cases r with
  | error fault => exact fun goOn herror => absurd herror (by simp)
  | ok copy =>
    obtain ⟨image, rfl, hreceived, henlarged⟩ := hcopied copy rfl
    obtain ⟨found, hfound⟩ := exists_image_root hreceived hserves hroot
    show (Visiting.onGraph ((Action.change (image value)).perform call)).Ends _ _
    rw [ends_onGraph, ends_perform_change]
    refine (Graph.replace_grafts hkept' hfound).imp fun r g' hend => ?_
    obtain ⟨hkept'', hreplaced⟩ := hend
    cases r with
    | error fault => exact fun goOn herror => absurd herror (by simp [Except.map, Except.mapError])
    | ok member =>
      refine fun goOn hgoOn => ⟨(Except.ok.inj hgoOn).symm, g', hkept'', ?_, rfl⟩
      rcases hreplaced member rfl with ⟨hsame, rfl⟩ | ⟨-, hmembers⟩
      · exact Answered.same henlarged (answersItself_of_image_root hsource hverdict
          hreceived hcall hsame)
      · exact Answered.moved henlarged hmembers

end Inlining

end BehaviorGraph
