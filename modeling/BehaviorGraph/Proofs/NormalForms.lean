/-
# Graphs with nothing left to fold

A node stands for a constant if it is one or names one (`Graph.Denotes`).  A payload is reducible
if it is an operation on such nodes only (`Payload.Reducible`); a payload with the right number of
arguments is either reducible or irreducible (`Payload.irreducible_iff`).

One walk in dataflow order is enough to fold everything.  **Whoever reads a node that is still to
be visited will be visited later**, unless the node is a constant (`Graph.Sweep`), so a node that
was visited once reads what will not change any more, and stays irreducible to the end
(`ConstantFolding.visitDefinition_sweeps`).
-/
import BehaviorGraph.Proofs.Conserving
import BehaviorGraph.Proofs.Ordering

namespace BehaviorGraph

/-! ## 1. Constants and names for them -/

namespace Payload

variable {payload : Payload} {f : NodeId → NodeId}

/-- Whose edges lead elsewhere is a constant only if it was one. -/
theorem mapEdges_eq_const_iff {c : Constant} :
    payload.mapEdges f = .const c ↔ payload = .const c := by
  refine ⟨fun h => ?_, by rintro rfl; rfl⟩
  have hkind : payload.kind = .const := by rw [← kind_mapEdges f, h]; rfl
  rwa [mapEdges_of_isUnique (by rw [hkind]; rfl)] at h

/-- The same of a binding. -/
theorem exists_of_mapEdges_eq_binding {value : NodeId} {name : String}
    (h : payload.mapEdges f = .binding value name) :
    ∃ value', payload = .binding value' name ∧ value = f value' := by
  cases payload with
  | binding value' name' =>
    obtain ⟨hvalue, rfl⟩ := binding.inj h
    exact ⟨value', rfl, hvalue.symm⟩
  | _ => exact Payload.noConfusion h

end Payload

namespace Graph

variable {start g g' : Graph} {id new : NodeId} {payload : Payload} {c : Constant}
  {rank : NodeId → Nat}

/-- **A member that is a constant**, or a name for one. -/
inductive Denotes (g : Graph) (c : Constant) : NodeId → Prop where
  | const {id : NodeId} (h : g.member? id = some (.const c)) : Denotes g c id
  | binding {id value : NodeId} {name : String} (h : g.member? id = some (.binding value name))
    (hvalue : Denotes g c value) : Denotes g c id

/-- A node that stands for some constant. -/
def Known (g : Graph) (id : NodeId) : Prop := ∃ c, g.Denotes c id

/-- Looking through bindings finds the constant a member stands for. -/
theorem constantOf_eq_some_iff (h : g.Kept) (hranked : g.Ranked rank)
    (hmember : g.member? id = some payload) : g.constantOf id = some c ↔ g.Denotes c id := by
  refine hranked.induct h (P := fun id => g.constantOf id = some c ↔ g.Denotes c id) ?_ hmember
  intro id payload hmember ih
  by_cases hbinding : ∃ value name, payload = .binding value name
  · obtain ⟨value, name, rfl⟩ := hbinding
    have hvalue := ih value (Payload.value_mem_inputEdges rfl)
    rw [constantOf, origin_binding h hranked hmember]
    refine ⟨fun hconstant => .binding hmember (hvalue.mp hconstant), fun hdenotes => ?_⟩
    cases hdenotes with
    | const hconst => exact absurd (hmember.symm.trans hconst) (by simp)
    | binding hsame hdenotes =>
      obtain ⟨rfl, -⟩ := Payload.binding.inj (Option.some.inj (hsame.symm.trans hmember))
      exact hvalue.mpr hdenotes
  · rw [constantOf, origin_of_ne_binding hmember fun value name heq => hbinding ⟨value, name, heq⟩,
      payload?_of_member? hmember]
    constructor
    · intro hconstant
      cases payload with
      | const found => exact .const (Option.some.inj hconstant ▸ hmember)
      | _ => exact absurd hconstant (by simp)
    · rintro (hconst | ⟨hbound, -⟩)
      · obtain rfl := Option.some.inj (hmember.symm.trans hconst)
        rfl
      · exact absurd ⟨_, _, Option.some.inj (hmember.symm.trans hbound)⟩ hbinding

theorem known_iff (h : g.Kept) (hranked : g.Ranked rank) (hmember : g.member? id = some payload) :
    g.Known id ↔ ∃ c, g.constantOf id = some c :=
  exists_congr fun _ => (constantOf_eq_some_iff h hranked hmember).symm

/-- **Who stands for a constant where its edges lead elsewhere stood for it before**, as long as
one stays among nodes of which that is known. -/
theorem Known.back {f : NodeId → NodeId} {S : NodeId → Prop}
    (hback : ∀ {id payload}, S id → g'.member? (f id) = some payload →
      ∃ found, g.member? id = some found ∧ payload = found.mapEdges f ∧
        ∀ target ∈ found.inputEdges, S target)
    (h : g'.Known (f id)) (hid : S id) : g.Known id := by
  obtain ⟨c, h⟩ := h
  refine ⟨c, ?_⟩
  generalize hplace : f id = place at h
  induction h generalizing id with
  | const hmember =>
    subst hplace
    obtain ⟨found, hfound, hpayload, -⟩ := hback hid hmember
    exact .const (Payload.mapEdges_eq_const_iff.mp hpayload.symm ▸ hfound)
  | binding hmember _ ih =>
    subst hplace
    obtain ⟨found, hfound, hpayload, hreads⟩ := hback hid hmember
    obtain ⟨value, rfl, hvalue⟩ := Payload.exists_of_mapEdges_eq_binding hpayload.symm
    exact .binding hfound (ih (hreads value (Payload.value_mem_inputEdges rfl)) hvalue.symm)

end Graph

/-! ## 2. Irreducible payloads -/

namespace Payload

variable {payload : Payload} {known known' : NodeId → Prop} {f : NodeId → NodeId}

/-- **A payload that is no operation on known nodes**: no built-in call of known arguments only, no
slice or cast of a known value, no choice with a known condition. -/
def Irreducible (known : NodeId → Prop) : Payload → Prop
  | builtInCall args _ _ => ∃ arg ∈ args, ¬ known arg
  | select condition _ _ _ => ¬ known condition
  | slice value _ _ _ | zeroExtend value _ | signExtend value _ | truncate value _
  | typeCast value _ =>
    ¬ known value
  | _ => True

/-- It stays irreducible where its edges lead to nodes that are known only if the old ones were. -/
theorem Irreducible.mapEdges (h : payload.Irreducible known)
    (hknown : ∀ target ∈ payload.inputEdges, known' (f target) → known target) :
    (payload.mapEdges f).Irreducible known' := by
  cases payload with
  | builtInCall args op type =>
    obtain ⟨arg, harg, hunknown⟩ := h
    rw [mapEdges_builtInCall]
    exact ⟨f arg, List.mem_map_of_mem harg,
      fun hnow => hunknown (hknown arg (mem_inputEdges_builtInCall.mpr harg) hnow)⟩
  | select condition trueCase falseCase type =>
    exact fun hnow => h (hknown condition (by simp) hnow)
  | slice value _ _ _ | zeroExtend value _ | signExtend value _ | truncate value _
  | typeCast value _ =>
    exact fun hnow => h (hknown value (value_mem_inputEdges rfl) hnow)
  | _ => trivial

/-- **A payload that is an operation on known nodes**: a built-in call with as many arguments as it
takes, all of them known, a slice or cast of a known value, or a choice with a known condition. -/
def Reducible (known : NodeId → Prop) : Payload → Prop
  | builtInCall args op _ => args.length = op.arity ∧ ∀ arg ∈ args, known arg
  | select condition _ _ _ => known condition
  | slice value _ _ _ | zeroExtend value _ | signExtend value _ | truncate value _
  | typeCast value _ =>
    known value
  | _ => False

/-- It was reducible before its edges led elsewhere, if nodes they lead to are known only if the
old ones were. -/
theorem Reducible.of_mapEdges (h : (payload.mapEdges f).Reducible known')
    (hknown : ∀ target ∈ payload.inputEdges, known' (f target) → known target) :
    payload.Reducible known := by
  cases payload with
  | builtInCall args op type =>
    rw [mapEdges_builtInCall] at h
    obtain ⟨harity, hargs⟩ := h
    rw [List.length_map] at harity
    exact ⟨harity, fun arg harg => hknown arg (mem_inputEdges_builtInCall.mpr harg)
      (hargs (f arg) (List.mem_map_of_mem harg))⟩
  | select condition trueCase falseCase type => exact hknown condition (by simp) h
  | slice value _ _ _ | zeroExtend value _ | signExtend value _ | truncate value _
  | typeCast value _ =>
    exact hknown value (value_mem_inputEdges rfl) h
  | _ => exact h

theorem not_reducible_of_isUnique (h : payload.kind.isUnique = true) :
    ¬ payload.Reducible known := by
  cases payload <;> first | exact id | exact Bool.noConfusion h

/-- **With the right number of arguments a payload is either irreducible or reducible.** -/
theorem irreducible_iff (harity : ∀ args op type, payload = .builtInCall args op type →
    args.length = op.arity) : payload.Irreducible known ↔ ¬ payload.Reducible known := by
  cases payload with
  | builtInCall args op type =>
    simp only [Irreducible, Reducible, harity args op type rfl, true_and]
    push Not
    exact Iff.rfl
  | _ => simp [Irreducible, Reducible]

end Payload

namespace Graph

open ConstantFolding

variable {start g g' : Graph} {id new : NodeId} {payload : Payload} {rank : NodeId → Nat}

/-- **Of a member something becomes exactly if it is reducible**, even if that may be too large a
slice. -/
theorem foldPayload_eq_keep_iff (h : g.Kept) (hranked : g.Ranked rank)
    (hmember : g.member? id = some payload) :
    foldPayload g payload = some .keep ↔ ¬ payload.Reducible g.Known := by
  have hknown : ∀ target ∈ payload.inputEdges,
      (g.Known target ↔ ∃ c, g.constantOf target = some c) := by
    intro target htarget
    obtain ⟨found, hfound⟩ := h.member?_of_mem_inputEdges hmember htarget
    exact known_iff h hranked hfound
  cases payload with
  | builtInCall args op type =>
    have hargs : ∀ arg ∈ args, (g.Known arg ↔ ∃ c, g.constantOf arg = some c) :=
      fun arg harg => hknown arg (Payload.mem_inputEdges_builtInCall.mpr harg)
    simp only [foldPayload, Payload.Reducible]
    cases hvalues : args.mapM g.constantOf with
    | none =>
      refine ⟨fun _ hall => ?_, fun _ => rfl⟩
      obtain ⟨values, hsome, -⟩ := exists_mapM fun arg harg => (hargs arg harg).mp (hall.2 arg harg)
      exact absurd (hvalues.symm.trans hsome) (by simp)
    | some values =>
      have hall := mapM_eq_some_iff.mp hvalues
      have hconstants : ∀ arg ∈ args, g.Known arg := by
        intro arg harg
        obtain ⟨place, hlt, rfl⟩ := List.mem_iff_getElem.mp harg
        obtain ⟨hlength, hget⟩ := List.forall₂_iff_get.mp hall
        exact (hargs _ harg).mpr ⟨_, hget place hlt (hlength ▸ hlt)⟩
      rw [Option.bind_some, hall.length_eq]
      by_cases harity : values.length = op.arity
      · obtain ⟨c, hc, -⟩ := exists_eval_of_arity harity type
        rw [hc]
        exact ⟨fun hkeep => Fold.noConfusion (Option.some.inj hkeep),
          fun hnot => absurd ⟨harity, hconstants⟩ hnot⟩
      · rw [eval_of_ne_arity harity]
        exact ⟨fun _ hboth => harity hboth.1, fun _ => rfl⟩
  | select value _ _ _ | slice value _ _ _ | zeroExtend value _ | signExtend value _
  | truncate value _
  | typeCast value _ =>
    have hvalue := hknown value (by simp [Payload.inputEdges, Payload.inputSlots, Slot.required])
    simp only [foldPayload, Payload.Reducible, hvalue]
    cases g.constantOf value with
    | none => simp [Fold.ofConstant?]
    | some c => simp [Fold.ofConstant?]
  | _ => simp [foldPayload, Payload.Reducible]

/-- Where every member obeys its rule none is reducible exactly if all are irreducible. -/
theorem Lawful.irreducible_iff (hlawful : g.Lawful) (hmember : g.member? id = some payload)
    {known : NodeId → Prop} : payload.Irreducible known ↔ ¬ payload.Reducible known := by
  refine Payload.irreducible_iff fun args op type hpayload => ?_
  subst hpayload
  exact hlawful hmember

/-! ## 3. Members of a kind -/

/-- There is no member of a kind. -/
def Without (g : Graph) (kind : Kind) : Prop :=
  ∀ {id payload}, g.member? id = some payload → payload.kind ≠ kind

/-- The members of a kind that are left are on a list. -/
def Among (g : Graph) (kind : Kind) (list : List NodeId) : Prop :=
  ∀ id payload, g.member? id = some payload → payload.kind = kind → id ∈ list

section

variable {kind : Kind} {old : NodeId} {rest : List NodeId}

theorem among_members (g : Graph) (kind : Kind) : g.Among kind g.members :=
  fun _ _ hmember _ => mem_members_iff.mpr ⟨_, hmember⟩

theorem Among.without (h : g.Among kind []) : g.Without kind :=
  fun hmember hkind => absurd (h _ _ hmember hkind) (by simp)

/-- Who is not of the kind has been dealt with. -/
theorem Among.pass (h : g.Among kind (id :: rest))
    (hne : ∀ {payload}, g.member? id = some payload → payload.kind ≠ kind) : g.Among kind rest := by
  intro other payload hmember hkind
  refine (List.mem_cons.mp (h _ _ hmember hkind)).resolve_left ?_
  rintro rfl
  exact hne hmember hkind

/-- So has a member that is given up, if no other of the kind comes in. -/
theorem Rewritten.among (h : g.Rewritten old new g')
    (hfresh : ∀ {id payload}, g'.member? id = some payload → g.member? id = none →
      payload.kind ≠ kind) (hamong : g.Among kind (old :: rest)) : g'.Among kind rest := by
  intro id payload' hmember' hkind
  cases hbefore : g.member? id with
  | none => exact absurd hkind (hfresh hmember' hbefore)
  | some payload =>
    rw [h.member?_of_member hbefore hmember', Payload.kind_mapEdges] at hkind
    exact (List.mem_cons.mp (hamong _ _ hbefore hkind)).resolve_left (h.ne_of_member hmember')

/-- And a graph without that kind stays without it. -/
theorem Rewritten.without (h : g.Rewritten old new g')
    (hfresh : ∀ {id payload}, g'.member? id = some payload → g.member? id = none →
      payload.kind ≠ kind) (hwithout : g.Without kind) : g'.Without kind :=
  (h.among hfresh fun _ _ hmember hkind => absurd hkind (hwithout hmember)).without

end

/-! ## 4. Folding in dataflow order -/

/-- **What one walk in dataflow order hands on from node to node**, when the nodes `rest` are still
to be visited. -/
structure Sweep (g : Graph) (rest : List NodeId) : Prop where
  kept : g.Kept
  ranked : ∃ rank, g.Ranked rank
  nodup : rest.Nodup
  /-- Whoever reads a node that is still to be visited is visited later, unless the node is a
  constant. -/
  behind : ∀ {target behind}, target :: behind <:+ rest → ∀ {user payload},
    g.member? user = some payload → target ∈ payload.inputEdges →
      user ∈ behind ∨ ∃ c, g.member? target = some (.const c)
  settled : ∀ {id payload}, g.member? id = some payload → id ∉ rest → ¬ payload.Reducible g.Known

/-- A node that is visited neither now nor later, unless it is a constant. -/
def DoneWith (g : Graph) (id : NodeId) (rest : List NodeId) (target : NodeId) : Prop :=
  target ≠ id ∧ (target ∉ rest ∨ ∃ c, g.member? target = some (.const c))

namespace Sweep

variable {rest : List NodeId}

/-- What is not to be visited any more reads nothing that is, but constants. -/
theorem reads (h : g.Sweep rest) (hmember : g.member? id = some payload) (hid : id ∉ rest)
    {target : NodeId} (htarget : target ∈ payload.inputEdges) :
    target ∉ rest ∨ ∃ c, g.member? target = some (.const c) := by
  by_cases hin : target ∈ rest
  · obtain ⟨front, behind, rfl⟩ := List.append_of_mem hin
    refine Or.inr ((h.behind ⟨front, rfl⟩ hmember htarget).resolve_left fun hbehind => hid ?_)
    exact List.mem_append_right _ (List.mem_cons_of_mem _ hbehind)
  · exact Or.inl hin

/-- In the end no member is reducible. -/
theorem irreducible (h : g.Sweep []) (hmember : g.member? id = some payload) :
    ¬ payload.Reducible g.Known :=
  h.settled hmember (by simp)

/-- A node that stays is visited. -/
theorem pass (h : g.Sweep (id :: rest)) (hid : ∀ {payload}, g.member? id = some payload →
    ¬ payload.Reducible g.Known) : g.Sweep rest where
  kept := h.kept
  ranked := h.ranked
  nodup := (List.nodup_cons.mp h.nodup).2
  behind hsuffix := h.behind (hsuffix.trans (List.suffix_cons id rest))
  settled := by
    intro other payload hmember hother
    by_cases heq : other = id
    · subst heq
      exact hid hmember
    · exact h.settled hmember (by simp [heq, hother])

/-- What a node reads that is done with is done with, too. -/
theorem done_of_reads (h : g.Sweep (id :: rest)) (hnone : ∀ c, g.member? id ≠ some (.const c))
    {user source : NodeId} (huser : g.DoneWith id rest user)
    (hmember : g.member? user = some payload)
    (hsource : source ∈ payload.inputEdges) : g.DoneWith id rest source := by
  obtain ⟨hne, hout | ⟨c, hc⟩⟩ := huser
  · have hreads := h.reads hmember (by simp [hne, hout]) hsource
    refine ⟨?_, hreads.imp_left fun hnot hin => hnot (List.mem_cons_of_mem _ hin)⟩
    rintro rfl
    obtain hnot | ⟨c, hc⟩ := hreads
    · exact hnot (by simp)
    · exact hnone c hc
  · obtain rfl := Option.some.inj (hmember.symm.trans hc)
    exact absurd hsource (Payload.not_mem_inputEdges_of_isUnique rfl)

/-- So it does not read the node that is given up, and stays irreducible. -/
theorem settled_rewrite (h : g.Sweep (id :: rest)) (hrewritten : g.Rewritten id new g')
    (hnone : ∀ c, g.member? id ≠ some (.const c)) {other : NodeId} (hne : other ≠ id)
    (hother : other ∉ rest) (hmember : g.member? other = some payload) :
    ¬ (payload.mapEdges (swap id new)).Reducible g'.Known := by
  intro hreducible
  refine h.settled hmember (by simp [hne, hother])
    (hreducible.of_mapEdges fun target htarget hknown => ?_)
  refine hknown.back (S := fun target => g.DoneWith id rest target ∧
    ∃ payload, g.member? target = some payload) ?_
    ⟨h.done_of_reads hnone ⟨hne, Or.inl hother⟩ hmember htarget,
      h.kept.member?_of_mem_inputEdges hmember htarget⟩
  rintro source moved ⟨hsource, found, hfound⟩ hmoved
  rw [swap_of_ne hsource.1, hrewritten.member? hsource.1 hfound] at hmoved
  exact ⟨found, hfound, (Option.some.inj hmoved).symm, fun target htarget =>
    ⟨h.done_of_reads hnone hsource hfound htarget, h.kept.member?_of_mem_inputEdges hfound htarget⟩⟩

/-- **Giving the node up keeps all that**, if only constants join the graph and what stands for the
node is one, or is not to be visited. -/
theorem rewrite (h : g.Sweep (id :: rest)) (hrewritten : g.Rewritten id new g')
    (hnone : ∀ c, g.member? id ≠ some (.const c))
    (hfresh : ∀ {other payload}, g'.member? other = some payload → g.member? other = none →
      payload.kind = .const)
    (hnew : new ∉ rest ∨ ∃ c, g'.member? new = some (.const c)) : g'.Sweep rest := by
  have hconst : ∀ {target c}, g.member? target = some (.const c) →
      g'.member? target = some (.const c) := by
    intro target c htarget
    refine hrewritten.member? ?_ htarget
    rintro rfl
    exact hnone c htarget
  refine ⟨hrewritten.kept, hrewritten.ranked, (List.nodup_cons.mp h.nodup).2, ?_, ?_⟩
  · intro target behind hsuffix user payload' hmember' htarget
    have hin : target ∈ rest := hsuffix.subset (by simp)
    cases hbefore : g.member? user with
    | none =>
      have hunique : payload'.kind.isUnique = true := by rw [hfresh hmember' hbefore]; rfl
      exact absurd htarget (Payload.not_mem_inputEdges_of_isUnique hunique)
    | some payload =>
      rw [hrewritten.member?_of_member hbefore hmember', Payload.inputEdges_mapEdges] at htarget
      obtain ⟨source, hsource, hmoved⟩ := List.mem_map.mp htarget
      by_cases heq : source = id
      · subst heq
        rw [swap_self] at hmoved
        subst hmoved
        exact Or.inr (hnew.resolve_left fun hnot => hnot hin)
      · rw [swap_of_ne heq] at hmoved
        subst hmoved
        rcases h.behind (hsuffix.trans (List.suffix_cons id rest)) hbefore hsource with
          hlater | ⟨c, hc⟩
        · exact Or.inl hlater
        · exact Or.inr ⟨c, hconst hc⟩
  · intro other payload' hmember' hother
    cases hbefore : g.member? other with
    | none => exact Payload.not_reducible_of_isUnique (by rw [hfresh hmember' hbefore]; rfl)
    | some payload =>
      rw [hrewritten.member?_of_member hbefore hmember']
      exact h.settled_rewrite hrewritten hnone (hrewritten.ne_of_member hmember') hother hbefore

/-- **Every visit keeps all that.** -/
theorem visit (h : g.Sweep (id :: rest)) (hmember : g.member? id = some payload)
    (hfolded : g.Folded id payload g') : g'.Sweep rest := by
  obtain ⟨rank, hranked⟩ := h.ranked
  have hnone : ∀ {fold}, foldPayload g payload = some fold → fold ≠ .keep →
      ∀ c, g.member? id ≠ some (.const c) := by
    intro fold hfold hne c hc
    obtain rfl := Option.some.inj (hmember.symm.trans hc)
    exact hne (Option.some.inj hfold).symm
  cases hfolded with
  | keep hfold hsame =>
    rw [hsame]
    refine h.pass fun hmember' => ?_
    exact (foldPayload_eq_keep_iff h.kept hranked hmember').mp
      (Option.some.inj (hmember.symm.trans hmember') ▸ hfold)
  | @node chosen hfold hrewritten honly =>
    refine h.rewrite hrewritten (hnone hfold (by simp))
      (fun hother hbefore => absurd hbefore (honly hother)) ?_
    -- The node reads what it becomes, so that was visited before or is a constant.
    have hin := mem_inputEdges_of_foldPayload hfold
    by_cases hchosen : chosen ∈ rest
    · obtain ⟨front, behind, rfl⟩ := List.append_of_mem hchosen
      have hid := (List.nodup_cons.mp h.nodup).1
      obtain hbehind | ⟨c, hc⟩ := h.behind (⟨id :: front, rfl⟩ : chosen :: behind <:+ _) hmember hin
      · exact absurd (List.mem_append_right _ (List.mem_cons_of_mem _ hbehind)) hid
      · refine Or.inr ⟨c, hrewritten.member? ?_ hc⟩
        rintro rfl
        exact hnone hfold (by simp) c hc
    · exact Or.inl hchosen
  | constant hfold hrewritten hnew honly =>
    exact h.rewrite hrewritten (hnone hfold (by simp))
      (fun hother hbefore => by rw [honly hother hbefore]; rfl) (Or.inr ⟨_, hnew⟩)

end Sweep

/-- **What holds of a graph when its constants were folded.** -/
structure Folding (start g : Graph) : Prop where
  conserved : Conserved start g
  kinds : ∀ {kind}, kind ≠ .const → start.Without kind → g.Without kind
  irreducible : ∀ {id payload}, g.member? id = some payload → payload.Irreducible g.Known

/-- Folding a node brings in nothing but constants. -/
theorem Folded.without {kind : Kind} (hfolded : g.Folded id payload g') (hkind : kind ≠ .const)
    (hwithout : g.Without kind) : g'.Without kind := by
  cases hfolded with
  | keep _ hsame =>
    rw [hsame]
    exact hwithout
  | node _ hrewritten honly =>
    exact hrewritten.without (fun hmember hbefore => absurd hbefore (honly hmember)) hwithout
  | constant _ hrewritten _ honly =>
    refine hrewritten.without (fun hmember hbefore => ?_) hwithout
    rw [honly hmember hbefore]
    exact hkind.symm

end Graph

namespace ConstantFolding

variable {d : Definition} {rank : NodeId → Nat}

/-- In dataflow order everything is still to be visited. -/
theorem sweep_start {g : Graph} {order : List NodeId} (h : g.Kept) (hranked : g.Ranked rank)
    (hforward : g.flow.Forward order) (hnodup : order.Nodup)
    (hmem : ∀ id, id ∈ order ↔ id ∈ g.members) : g.Sweep order where
  kept := h
  ranked := ⟨rank, hranked⟩
  nodup := hnodup
  behind hsuffix _ _ hmember htarget :=
    Or.inl ((hforward.suffix hsuffix).1 _ (Graph.edge_flow_iff.mpr ⟨_, hmember, htarget⟩))
  settled hmember hid := absurd ((hmem _).mpr (Graph.mem_members_iff.mpr ⟨_, hmember⟩)) hid

/-- **The walk of the pass is such a sweep**, as far as it gets. -/
theorem visitDefinition_sweeps (h : d.behavior.Kept) (hranked : d.behavior.Ranked rank)
    (others : List Definition) (memory : Nat) :
    (pass.visitor.visitDefinition others).Ends ⟨memory, d⟩ fun r v =>
      r = .ok () → v.definition.behavior.Sweep [] := by
  obtain ⟨order, horder, hforward, hnodup, hmem⟩ := d.behavior.dataflowOrder_eq_ok h hranked.acyclic
  refine visitDefinition_of_nodes
    (Q := fun r d' => r = .ok () → d'.behavior.Sweep []) rfl
    (congrArg (Except.mapError Abort.error) horder)
    (fun v => (Run.ends_count VisitState.memory _ _ _ _).mpr ⟨⟨_, rfl⟩, rfl⟩) ?_
  refine visitNodes_hands_on (P := fun rest v => v.definition.behavior.Sweep rest) ?_ ?_
    order (sweep_start h hranked hforward hnodup hmem)
  · intro v id rest hsweep hnone
    refine hsweep.pass fun hmember => ?_
    rw [hnone] at hmember
    exact absurd hmember (by simp)
  · intro v id rest payload hsweep hmember
    obtain ⟨rank', hranked'⟩ := hsweep.ranked
    refine (visitStep_folded hsweep.kept hranked' hmember).imp fun r v' hend => ?_
    rintro goOn rfl
    rcases hend with ⟨hok, hfolded⟩ | ⟨hfailed, -⟩
    · exact ⟨Except.ok.inj hok, hsweep.visit hmember hfolded⟩
    · exact absurd hfailed (by simp)

/-- **Where nothing can be folded the pass changes nothing.** -/
theorem visitDefinition_rests (h : d.behavior.Kept) (hranked : d.behavior.Ranked rank)
    (hsettled : ∀ {id payload}, d.behavior.member? id = some payload →
      ¬ payload.Reducible d.behavior.Known) (others : List Definition) (memory : Nat) :
    (pass.visitor.visitDefinition others).Ends ⟨memory, d⟩ fun r v => r = .ok () ∧
      v.definition = d := by
  obtain ⟨order, horder⟩ := orderNodes_eq_ok h hranked.acyclic
  refine visitDefinition_of_nodes (Q := fun r d' => r = .ok () ∧ d' = d) rfl horder
    (fun v => (Run.ends_count VisitState.memory _ _ _ _).mpr ⟨⟨_, rfl⟩, rfl⟩)
    ((visitNodes_rests ?_ order).imp fun r v hend => ⟨hend.1, by rw [hend.2]⟩)
  intro id payload hmember
  exact visitStep_of_keep hmember
    ((Graph.foldPayload_eq_keep_iff h hranked hmember).mpr (hsettled hmember))

/-- **Folding constants leaves nothing to fold**, if it completes. -/
theorem visitDefinition_folding (h : d.behavior.Kept) (hranked : d.behavior.Ranked rank)
    (hlawful : d.behavior.Lawful) (others : List Definition) (memory : Nat) :
    (pass.visitor.visitDefinition others).Ends ⟨memory, d⟩ fun r v =>
      r = .ok () → d.behavior.Folding v.definition.behavior := by
  have hsweeps := visitDefinition_sweeps h hranked others memory
  have hfolds := visitDefinition_folds (P := fun g => d.behavior.Conserved g ∧
    ∀ {kind}, kind ≠ .const → d.behavior.Without kind → g.Without kind)
    (fun hc => ⟨hc.1.carried.kept, hc.1.carried.ranked⟩)
    (fun hc hranked hmember hfolded => ⟨hfolded.conserved hc.1 hranked hmember,
      fun hkind hstart => hfolded.without hkind (hc.2 hkind hstart)⟩)
    ⟨.refl h hranked hlawful, fun _ hstart => hstart⟩ others memory
  obtain ⟨⟨hconserved, hkinds⟩, -⟩ := hfolds
  exact fun hok => ⟨hconserved, hkinds, fun hmember =>
    (Graph.Lawful.irreducible_iff hconserved.lawful hmember).mpr
      ((hsweeps hok).irreducible hmember)⟩

end ConstantFolding

/-! ## 5. Reachable graphs -/

namespace Graph

open ConstantFolding

variable {g g' : Graph} {id : NodeId} {payload : Payload} {rank : NodeId → Nat}

/-- Folding a node keeps the records in order and reading acyclic. -/
theorem Folded.kept_ranked (hfolded : g.Folded id payload g') (h : g.Kept)
    (hranked : g.Ranked rank) :
    g'.Kept ∧ ∃ rank, g'.Ranked rank := by
  cases hfolded with
  | keep _ hsame =>
    rw [hsame]
    exact ⟨h, rank, hranked⟩
  | node _ hrewritten _ => exact ⟨hrewritten.kept, hrewritten.ranked⟩
  | constant _ hrewritten _ _ => exact ⟨hrewritten.kept, hrewritten.ranked⟩

/-- What cannot be folded is a slice of a known value, from the last bit that 32 bits can number
down to the first. -/
theorem exists_slice_of_foldPayload (h : g.Kept) (hranked : g.Ranked rank)
    (hmember : g.member? id = some payload) (hnone : foldPayload g payload = none) :
    ∃ value high low type, payload = .slice value high low type ∧ g.Known value ∧
      Constant.widthLimit ≤ high - low + 1 ∧
      (high < Constant.widthLimit → high = Constant.widthLimit - 1 ∧ low = 0) := by
  obtain ⟨value, high, low, type, c, rfl, hconstant, hlimit⟩ := foldPayload_eq_none_iff.mp hnone
  obtain ⟨found, hfound⟩ := h.member?_of_mem_inputEdges hmember
    (Payload.value_mem_inputEdges rfl : value ∈ (Payload.slice value high low type).inputEdges)
  have hpos : 1 < Constant.widthLimit := by decide
  exact ⟨value, high, low, type, rfl, (known_iff h hranked hfound).mpr ⟨c, hconstant⟩,
    hlimit, by omega⟩

/-- **One walk folds all there is to fold**, and a second one changes nothing.  Nothing but a slice
of all the bits that 32 bits can number keeps it from completing. -/
theorem Reachable.folding_completes {d : Definition} (h : d.behavior.Reachable)
    (hacyclic : d.behavior.Acyclic) (others : List Definition) (memory : Nat) :
    let o := pass.visitor.visitDefinition others ⟨memory, d⟩
    let g := o.state.definition.behavior
    (o.result = .ok () ∨ o.result = .error (.halt .overflow) ∧ ∃ id value high low type,
      g.member? id = some (.slice value high low type) ∧ g.Known value ∧
      Constant.widthLimit ≤ high - low + 1 ∧
      (high < Constant.widthLimit → high = Constant.widthLimit - 1 ∧ low = 0)) ∧
    (o.result = .ok () →
      (∀ {id payload}, g.member? id = some payload → ¬ payload.Reducible g.Known) ∧
      ∀ others memory, let again := pass.visitor.visitDefinition others ⟨memory, o.state.definition⟩
        again.result = .ok () ∧ again.state.definition = o.state.definition) := by
  have hkept := h.kept
  obtain ⟨rank, hranked⟩ := hacyclic.exists_ranked hkept
  have hsweeps := visitDefinition_sweeps hkept hranked others memory
  obtain ⟨⟨hkept', rank', hranked'⟩, hresult⟩ := visitDefinition_folds
    (P := fun g => g.Kept ∧ ∃ rank, g.Ranked rank) (fun hg => hg)
    (fun hg hranked _ hfolded => hfolded.kept_ranked hg.1 hranked)
      ⟨hkept, rank, hranked⟩ others memory
  refine ⟨hresult.imp_right ?_, fun hok => ⟨(hsweeps hok).irreducible, fun others memory => ?_⟩⟩
  · rintro ⟨hhalt, id, payload, hmember, hnone⟩
    obtain ⟨value, high, low, type, rfl, hslice⟩ :=
      exists_slice_of_foldPayload hkept' hranked' hmember hnone
    exact ⟨hhalt, id, value, high, low, type, hmember, hslice⟩
  · exact visitDefinition_rests hkept' hranked' (hsweeps hok).irreducible others memory

/-- A function that names a sum of constants, chooses by the product of the name with one of them,
and truncates what is chosen; and a sum of one argument only, which nobody reads. -/
def foldingDeep : Definition where
  name := "f"
  role := .function
  behavior :=
    ([.add (.const (.ofInt 2 (.uint 8))), .add (.const (.ofInt 3 (.uint 8))),
      .add (.builtInCall [⟨0⟩, ⟨1⟩] .add (.uint 8)), .add (.binding ⟨2⟩ "sum"),
      .add (.builtInCall [⟨3⟩, ⟨1⟩] .mul (.uint 8)), .add (.param "x" (.uint 8)),
      .add (.select ⟨4⟩ ⟨3⟩ ⟨5⟩ (.uint 8)), .add (.truncate ⟨6⟩ (.uint 4)),
      .add (.builtInCall [⟨6⟩] .add (.uint 8)), .add (.ret ⟨7⟩)] : List Move).foldl
        (fun g move => move.after g) (empty "f")

/-- One walk finds that a constant is returned.  The sum of one argument is left, with the name for
it. -/
theorem folding_completes_foldingDeep :
    let o := pass.visitor.visitDefinition [] ⟨0, foldingDeep⟩
    let g := o.state.definition.behavior
    o.result = .ok () ∧ [⟨8⟩, ⟨9⟩, ⟨12⟩].map g.member? = [some (.builtInCall [⟨3⟩] .add (.uint 8)),
      some (.ret ⟨12⟩), some (.const (.ofInt 5 (.uint 4)))] ∧
    (∀ {id payload}, g.member? id = some payload → ¬ payload.Reducible g.Known) ∧
    (pass.visitor.visitDefinition [] ⟨0, o.state.definition⟩).state.definition
      = o.state.definition := by
  have hreachable : foldingDeep.behavior.Reachable := reachable_foldl "f" _
  have hacyclic : foldingDeep.behavior.Acyclic := acyclic_of_creation (by cbv)
  have hok : (pass.visitor.visitDefinition [] ⟨0, foldingDeep⟩).result = .ok () := by cbv
  obtain ⟨-, hcompletes⟩ := hreachable.folding_completes hacyclic [] 0
  obtain ⟨hirreducible, hrests⟩ := hcompletes hok
  exact ⟨hok, by cbv, hirreducible, (hrests [] 0).2⟩

end Graph

end BehaviorGraph
