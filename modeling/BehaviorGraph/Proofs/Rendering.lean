/-
# Rendering a cast

`Rendered` says what stands for a cast from one type to another once it is eliminated: its operand,
or a new node that reads the operand.  Either way **the stand-in comes to what the rule for the two
types makes of the operand** (`value_of_rendered`).

If the first of all casts left is eliminated that way, it is the type its operand has in the graph
that it is rendered by, and the casts behind it see the same types as before.  So what every member
comes to, with casts rendered by the types they see, stays what it was
(`Elimination.evalRecast_eq`).
-/
import BehaviorGraph.Proofs.Casts
import BehaviorGraph.Proofs.Exchanging

namespace BehaviorGraph

/-! ## 1. Comparing with zero -/

theorem Word.signExtend_zero (width : Nat) : (BitVec.ofNat width 0).signExtend 128 = 0 := by
  rw [BitVec.signExtend_eq_setWidth_of_msb_false BitVec.msb_zero, BitVec.setWidth_zero]
  rfl

theorem ValueType.normalize_zero (type : ValueType) : type.normalize 0 = 0 := by
  simp [normalize, Word.extend, Word.truncate, Word.signExtend_zero]

/-- The bits of a constant are zero exactly if its word is. -/
theorem Constant.unsignedWord_eq_zero_iff (c : Constant) : c.unsignedWord = 0 ↔ c.word = 0 := by
  constructor
  · intro h
    have hnormal := c.normal
    by_cases hwhole : wholeWidth ≤ c.type.width
    · rwa [unsignedWord, Word.truncate, if_pos hwhole] at h
    · have hle : c.type.width ≤ 128 := by
        unfold wholeWidth at hwhole
        omega
      rw [unsignedWord, Word.truncate, if_neg hwhole] at h
      have hbits : BitVec.setWidth c.type.width c.word = 0 := by
        have hcut := congrArg (BitVec.setWidth c.type.width) h
        simpa [BitVec.setWidth_setWidth_of_le _ hle] using hcut
      rw [ValueType.normalize, Word.extend, Word.truncate, if_neg hwhole, if_neg hwhole, hbits]
        at hnormal
      rw [← hnormal]
      split <;> simp [Word.signExtend_zero]
  · intro h
    simp [unsignedWord, Word.truncate, h]

/-- **Comparing with zero is the cast to a truth value.** -/
theorem BuiltIn.eval_neq_zero (c : Constant) (source : ValueType) :
    neq.eval [c, Constant.ofInt 0 source] .bool = some (ConstantFolding.convert c .bool) := by
  have hzero : (Constant.ofInt 0 source).unsignedWord = 0 :=
    (Constant.unsignedWord_eq_zero_iff _).mpr (source.normalize_zero)
  have hnonzero : decide (c.unsignedWord ≠ 0) = !c.isZero := by
    rw [Constant.isZero, decide_not, decide_eq_decide.mpr (Constant.unsignedWord_eq_zero_iff c)]
  rw [eval, evalBinary, hzero, Option.map_some, hnonzero, ConstantFolding.convert, if_pos rfl]
  cases c.isZero <;> rfl

/-! ## 2. What stands for a cast -/

namespace Graph

variable {g g' : Graph} {id value new cast c : NodeId} {payload : Payload} {source type : ValueType}
  {rank : NodeId → Nat} {ρ : Assignment}

/-- **What stands for a cast** of `value` from `source` to `type`. -/
inductive Rendered (g : Graph) (value : NodeId) (source type : ValueType) : NodeId → Prop where
  /-- Between types of one width, the operand itself. -/
  | same (hwidth : source.width = type.width) : Rendered g value source type value
  | toBool {new zero : NodeId} (hwidth : source.width ≠ type.width) (hbool : type = .bool)
    (hnew : g.member? new = some (.builtInCall [value, zero] .neq .bool))
    (hzero : g.member? zero = some (.const (Constant.ofInt 0 source))) :
    Rendered g value source type new
  | narrow {new : NodeId} (hbool : type ≠ .bool) (hwidth : type.width < source.width)
    (hnew : g.member? new = some (.truncate value type)) : Rendered g value source type new
  | widen {new : NodeId} (hbool : type ≠ .bool) (hwidth : source.width < type.width)
    (hnew : g.member? new = some
      (if source.isSigned then .signExtend value type else .zeroExtend value type)) :
    Rendered g value source type new

/-- **The stand-in comes to what the rule makes of the operand.** -/
theorem value_of_rendered (h : g.Kept) (hranked : g.Ranked rank)
    (hnew : g.Rendered value source type new) (casting : Casting) :
    (evaluating ρ casting).value g new
      = ((evaluating ρ casting).value g value).map fun c => recastFrom source c type := by
  cases hnew with
  | same hwidth => simp [recastFrom, hwidth]
  | @toBool _ zero hwidth hbool hnew hzero =>
    subst hbool
    have hconst : (evaluating ρ casting).value g zero = some (Constant.ofInt 0 source) :=
      eval_eq_step h hranked hzero
    rw [eval_eq_step h hranked hnew, evalStep, List.mapM_cons, List.mapM_cons,
      List.mapM_nil, hconst]
    cases (evaluating ρ casting).value g value with
    | none => rfl
    | some c =>
      rw [Option.map_some, recastFrom, if_neg hwidth, if_pos (Or.inl rfl)]
      exact BuiltIn.eval_neq_zero c source
  | narrow hbool hwidth hnew =>
    rw [eval_eq_step h hranked hnew, evalStep]
    congr 1
    funext c
    rw [recastFrom, if_neg (by omega), if_pos (Or.inr hwidth),
      ConstantFolding.convert, if_neg hbool]
  | widen hbool hwidth hnew =>
    have hother : ¬ (type = .bool ∨ type.width < source.width) := by
      rintro (heq | hlt)
      · exact hbool heq
      · omega
    rw [eval_eq_step h hranked hnew]
    cases hsigned : source.isSigned with
    | true =>
      rw [if_pos rfl, evalStep]
      congr 1
      funext c
      rw [recastFrom, if_neg (by omega), if_neg hother, if_pos hsigned]
    | false =>
      rw [if_neg (by simp), evalStep]
      congr 1
      funext c
      rw [recastFrom, if_neg (by omega), if_neg hother, if_neg (by simp [hsigned])]

/-- The stand-in has the type of the operand between types of one width, else the type cast to. -/
theorem seenType_of_rendered (h : g.Kept) (hranked : g.Ranked rank)
    (hnew : g.Rendered value source type new) :
    g.seenType c new = if source.width = type.width then g.seenType c value else some type := by
  cases hnew with
  | same hwidth => rw [if_pos hwidth]
  | toBool hwidth hbool hnew hzero =>
    rw [if_neg hwidth, seenType_eq_step h hranked hnew, hbool]
    rfl
  | narrow hbool hwidth hnew =>
    rw [if_neg (by omega), seenType_eq_step h hranked hnew]
    rfl
  | widen hbool hwidth hnew =>
    rw [if_neg (by omega), seenType_eq_step h hranked hnew]
    cases source.isSigned <;> rfl

/-! ## 3. Eliminating the first cast -/

/-- **The cast `cast` of `value` was eliminated**, and `new` stands for it. -/
structure Elimination (g : Graph) (cast value : NodeId) (source type : ValueType) (new : NodeId)
    (g' : Graph) : Prop where
  kept : g'.Kept
  ranked : ∃ rank, g'.Ranked rank
  size : g.nodes.size ≤ g'.nodes.size
  gone : g'.member? cast = none
  member? : ∀ {id payload}, id ≠ cast → g.member? id = some payload →
    g'.member? id = some (payload.mapEdges (swap cast new))
  /-- What is new stands at the end of the arena and is no cast.  If it is not what stands for the
  cast it is a constant. -/
  fresh : ∀ {id payload}, g'.member? id = some payload → g.member? id = none →
    g.nodes.size ≤ id.index ∧ payload.kind ≠ .typeCast ∧ (id = new ∨ payload.kind = .const)
  rendered : g'.Rendered value source type new
  framed : g.Framed g'

/-- The operand of a cast is another node. -/
theorem swap_operand (hranked : g.Ranked rank)
    (hcast : g.member? cast = some (.typeCast value type)) : swap cast new value = value := by
  have hlt := hranked.falls hcast value (Payload.value_mem_inputEdges rfl)
  refine swap_of_ne ?_
  rintro rfl
  omega

namespace Elimination

/-- **A later cast sees the same types as before.** -/
theorem seenType_eq (he : g.Elimination cast value source type new g') (h : g.Kept)
    (hranked : g.Ranked rank) (hcast : g.member? cast = some (.typeCast value type))
    (hsource : g.typeOf value = some source) (hlater : cast.index < c.index)
    (hmember : g.member? id = some payload) :
    g.seenType c id = g'.seenType c (swap cast new id) := by
  obtain ⟨rank', hranked'⟩ := he.ranked
  refine Interpretation.value_of_exchange h hranked he.kept hranked' he.member? (fun _ _ => rfl)
    ?_ hmember
  intro payload hpayload hreads
  rw [hcast] at hpayload
  obtain rfl := Option.some.inj hpayload
  have hin : value ∈ (Payload.typeCast value type).inputEdges :=
    Payload.value_mem_inputEdges rfl
  have hvalue : g.seenType c value = g'.seenType c value := by
    have hread := hreads value hin
    rwa [swap_operand hranked hcast] at hread
  obtain ⟨found, hfound⟩ := h.member?_of_mem_inputEdges hcast hin
  have hwidth := width_seenType (c := c) h hranked hfound
  rw [widthOf, hsource, Option.map_some] at hwidth
  obtain ⟨seen, hseen, hsame⟩ := Option.map_eq_some_iff.mp hwidth
  show g.seenType c cast = g'.seenType c new
  rw [seenType_eq_step h hranked hcast, seenType_of_rendered he.kept hranked' he.rendered, ← hvalue,
    seeStep, if_pos hlater, hseen, Option.map_some, hsame]
  split <;> rfl

/-- **A later cast makes the same of a constant as before.** -/
theorem recast_eq (he : g.Elimination cast value source type new g') (h : g.Kept)
    (hranked : g.Ranked rank) (hcast : g.member? cast = some (.typeCast value type))
    (hsource : g.typeOf value = some source) {operand : NodeId} {target : ValueType}
    (hlater : cast.index < id.index) (hmember : g.member? id = some (.typeCast operand target)) :
    g'.recast id = g.recast id := by
  have hne : id ≠ cast := by
    rintro rfl
    omega
  have hmember' : g'.member? id = some (.typeCast (swap cast new operand) target) :=
    he.member? hne hmember
  obtain ⟨found, hfound⟩ := h.member?_of_mem_inputEdges hmember
    (Payload.value_mem_inputEdges rfl : operand ∈ _)
  have hseen : g'.seenSource id = g.seenSource id := by
    rw [seenSource, seenSource, hmember, hmember']
    exact (he.seenType_eq h hranked hcast hsource hlater hfound).symm
  funext c target
  rw [recast, recast, hseen]

/-- **With casts rendered by the types they see, every member comes to what it came to before.** -/
theorem evalRecast_eq (he : g.Elimination cast value source type new g') (h : g.Kept)
    (hranked : g.Ranked rank) (hcast : g.member? cast = some (.typeCast value type))
    (hsource : g.typeOf value = some source)
    (hfirst : ∀ {id value type}, g.member? id = some (.typeCast value type) → cast.index ≤ id.index)
    (ρ : Assignment) (hmember : g.member? id = some payload) :
    ρ.evalRecast g id = ρ.evalRecast g' (swap cast new id) := by
  obtain ⟨rank', hranked'⟩ := he.ranked
  refine Interpretation.value_of_exchange h hranked he.kept hranked' he.member? ?_ ?_ hmember
  · intro id payload hne hmember
    funext read
    show evalStep ρ g'.recast id payload read = evalStep ρ g.recast id payload read
    cases payload with
    | typeCast operand target =>
      have hle := hfirst hmember
      have hlater : cast.index < id.index := by
        refine Nat.lt_of_le_of_ne hle fun heq => hne ?_
        cases id
        cases cast
        exact congrArg NodeId.mk heq.symm
      rw [evalStep, evalStep, he.recast_eq h hranked hcast hsource hlater hmember]
    | _ => rfl
  · intro payload hpayload hreads
    rw [hcast] at hpayload
    obtain rfl := Option.some.inj hpayload
    have hin : value ∈ (Payload.typeCast value type).inputEdges :=
      Payload.value_mem_inputEdges rfl
    obtain ⟨found, hfound⟩ := h.member?_of_mem_inputEdges hcast hin
    have hseen : g.seenSource cast = some source := by
      rw [seenSource, hcast]
      exact (seenType_eq_typeOf h hranked hfirst hfound).trans hsource
    have hread := hreads value hin
    rw [swap_operand hranked hcast] at hread
    rw [eval_eq_step h hranked hcast, value_of_rendered he.kept hranked' he.rendered, ← hread,
      evalStep]
    simp only [recast, hseen]

/-- The members of before, each moved to where its value is now, are members. -/
theorem exists_member? (he : g.Elimination cast value source type new g') (h : g.Kept)
    (hranked : g.Ranked rank) (hcast : g.member? cast = some (.typeCast value type))
    (hmember : g.member? id = some payload) :
    ∃ payload', g'.member? (swap cast new id) = some payload' := by
  by_cases hid : id = cast
  · rw [hid, swap_self]
    cases he.rendered with
    | same =>
      have hin : value ∈ (Payload.typeCast value type).inputEdges :=
        Payload.value_mem_inputEdges rfl
      have hlt := hranked.falls hcast value hin
      obtain ⟨found, hfound⟩ := h.member?_of_mem_inputEdges hcast hin
      refine ⟨_, he.member? ?_ hfound⟩
      rintro rfl
      omega
    | toBool _ _ hnew _ => exact ⟨_, hnew⟩
    | narrow _ _ hnew => exact ⟨_, hnew⟩
    | widen _ _ hnew => exact ⟨_, hnew⟩
  · rw [swap_of_ne hid]
    exact ⟨_, he.member? hid hmember⟩

end Elimination

end Graph

end BehaviorGraph
