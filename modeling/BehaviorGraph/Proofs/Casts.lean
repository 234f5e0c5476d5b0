/-
# Casts by the type that is seen

When casts are eliminated one after the other, in the order in which they were created, a cast is
rendered by the type its operand has *then*.  The casts before it are gone, and one between types
of a single width has left the type of its own operand behind.  `Graph.seenType` is that type, read
off the graph as it was before anything was eliminated, and `Graph.recast` is what a cast rendered
by it makes of a constant.

A type that is seen has the width of the type that is declared (`width_seenType`) but not always
its sign, and there the two ways to evaluate a graph part.  They come to the same words wherever
**no cast between types of one width and no choice between cases changes the sign**
(`recast_agrees`).
-/
import BehaviorGraph.Proofs.Evaluation

namespace BehaviorGraph

/-! ## 1. Types that are seen -/

/-- The type of a payload as the cast `c` sees it. -/
def seeStep (c id : NodeId) (payload : Payload) (read : NodeId → Option ValueType) :
    Option ValueType :=
  match payload with
  | .binding value _ => read value
  | .typeCast value type =>
    if id.index < c.index then
      (read value).map fun source => if source.width = type.width then source else type
    else some type
  | payload => payload.declaredType

/-- Types as the cast sees them, as an interpretation of the graph: they depend on edges only
through the types read. -/
def seeing (c : NodeId) : Interpretation ValueType where
  step := seeStep c
  step_mapEdges := by
    intro id payload f read read' h
    cases payload with
    | binding value _ | typeCast value _ =>
      have hvalue := h value (Payload.value_mem_inputEdges rfl)
      simp only [Payload.mapEdges, Payload.assignInputs, Payload.assignSuccessors, Payload.inputs,
        Payload.inputSlots, Slot.required, Payload.assignRequired, List.map_cons, List.map_nil,
        Option.map_some, List.getElem?_cons_zero, seeStep, hvalue]
    | _ => rfl

namespace Graph

variable {g : Graph} {c id value : NodeId} {payload : Payload} {type : ValueType}
  {rank : NodeId → Nat} {ρ : Assignment}

/-- **The type of a node when it is the turn of the cast `c`**: casts created before `c` are gone.
-/
def seenType (g : Graph) (c id : NodeId) : Option ValueType := (seeing c).value g id

/-- The type of the operand of a cast when it is its turn. -/
def seenSource (g : Graph) (c : NodeId) : Option ValueType :=
  match g.member? c with
  | some (.typeCast value _) => g.seenType c value
  | _ => none

/-- The type that is seen, step by step. -/
theorem seenType_eq_step (h : g.Kept) (hranked : g.Ranked rank)
    (hmember : g.member? id = some payload) :
    g.seenType c id = seeStep c id payload (g.seenType c) :=
  Interpretation.value_eq_step h hranked hmember

/-- **Whatever cast it is seen by, a value has the width of its type.** -/
theorem width_seenType (h : g.Kept) (hranked : g.Ranked rank)
    (hmember : g.member? id = some payload) :
    (g.seenType c id).map ValueType.width = g.widthOf id := by
  refine hranked.induct h (P := fun id => (g.seenType c id).map ValueType.width = g.widthOf id)
    ?_ hmember
  intro id payload hmember ih
  rw [seenType_eq_step h hranked hmember, widthOf, typeOf_eq h hranked hmember]
  cases payload with
  | binding value name => exact ih value (Payload.value_mem_inputEdges rfl)
  | typeCast value type =>
    have hin : value ∈ (Payload.typeCast value type).inputEdges :=
      Payload.value_mem_inputEdges rfl
    obtain ⟨found, hfound, hkind⟩ := h.value_of_mem_inputEdges hmember rfl hin
    obtain ⟨source, hsource, -⟩ := exists_typeOf h hranked hfound hkind
    have hwidth := ih value hin
    rw [widthOf, hsource] at hwidth
    obtain ⟨seen, hseen, -⟩ := Option.map_eq_some_iff.mp hwidth
    rw [seeStep, hseen]
    by_cases hbefore : id.index < c.index
    · by_cases hsame : seen.width = type.width
      · simp [hbefore, hsame, Payload.declaredType]
      · simp [hbefore, hsame, Payload.declaredType]
    · simp [hbefore, Payload.declaredType]
  | _ => rfl

/-- A cast before which none is left sees the types that are declared. -/
theorem seenType_eq_typeOf (h : g.Kept) (hranked : g.Ranked rank)
    (hfirst : ∀ {id value type}, g.member? id = some (.typeCast value type) → c.index ≤ id.index)
    (hmember : g.member? id = some payload) : g.seenType c id = g.typeOf id := by
  refine hranked.induct h (P := fun id => g.seenType c id = g.typeOf id) ?_ hmember
  intro id payload hmember ih
  rw [seenType_eq_step h hranked hmember, typeOf_eq h hranked hmember]
  cases payload with
  | binding value name => exact ih value (Payload.value_mem_inputEdges rfl)
  | typeCast value type => exact if_neg (Nat.not_lt.mpr (hfirst hmember))
  | _ => rfl

/-- The operand of a cast is seen to have the width it has. -/
theorem exists_seenSource (h : g.Kept) (hranked : g.Ranked rank)
    (hmember : g.member? id = some (.typeCast value type)) {source : ValueType}
    (hsource : g.typeOf value = some source) :
    ∃ seen, g.seenSource id = some seen ∧ seen.width = source.width := by
  obtain ⟨found, hfound⟩ := h.member?_of_mem_inputEdges hmember
    (Payload.value_mem_inputEdges rfl : value ∈ _)
  have hwidth := width_seenType (c := id) h hranked hfound
  rw [widthOf, hsource, Option.map_some] at hwidth
  rw [seenSource, hmember]
  exact Option.map_eq_some_iff.mp hwidth

end Graph

/-! ## 2. Casts rendered by a type -/

/-- What the rendering of a cast from `source` makes of a constant: nothing between types of one
width, a comparison with zero, a truncation, or the extension that fits the sign of `source`. -/
def recastFrom (source : ValueType) (c : Constant) (type : ValueType) : Constant :=
  if source.width = type.width then c
  else if type = .bool ∨ type.width < source.width then ConstantFolding.convert c type
  else if source.isSigned then ConstantFolding.signExtend c type
  else ConstantFolding.zeroExtend c type

/-- **What the cast of a node makes of a constant when it is rendered by the type it sees.** -/
def Graph.recast (g : Graph) : Casting := fun id c type =>
  match g.seenSource id with
  | some source => recastFrom source c type
  | none => ConstantFolding.convert c type

/-- What a node comes to under an assignment, casts rendered by the types they see. -/
def Assignment.evalRecast (ρ : Assignment) (g : Graph) (id : NodeId) : Option Constant :=
  (evaluating ρ g.recast).value g id

/-- Where there are no casts it does not matter how they are rendered. -/
theorem Assignment.evalRecast_eq_eval (ρ : Assignment) {g : Graph}
    (h : ∀ {id value type}, g.member? id ≠ some (.typeCast value type)) :
    ρ.evalRecast g = ρ.eval g := by
  refine Interpretation.value_congr fun {id payload} hmember => ?_
  funext read
  cases payload with
  | typeCast value type => exact absurd hmember h
  | _ => rfl

/-- A conversion ends in the type it is to. -/
theorem type_convert (c : Constant) (type : ValueType) :
    (ConstantFolding.convert c type).type = type := by
  unfold ConstantFolding.convert
  split
  · rename_i hbool
    exact hbool.symm
  · rfl

/-- A rendered cast ends in the width it is to; between types of one width it leaves the type it
finds. -/
theorem width_recastFrom {source type : ValueType} {c : Constant}
    (h : c.type.width = source.width) : (recastFrom source c type).type.width = type.width := by
  unfold recastFrom
  split
  · rename_i hsame
    exact h.trans hsame
  · split
    · rw [type_convert]
    · split <;> rfl

namespace Graph

variable {g : Graph} {rank : NodeId → Nat}

/-- Casts rendered by declared types keep to the declared widths. -/
theorem castsFit_convert (g : Graph) : g.CastsFit fun _ => ConstantFolding.convert := by
  intro id value type hmember c source hsource hwidth
  rw [type_convert]

/-- So do casts rendered by the types they see. -/
theorem castsFit_recast (h : g.Kept) (hranked : g.Ranked rank) : g.CastsFit g.recast := by
  intro id value type hmember c source hsource hwidth
  obtain ⟨seen, hseen, hseenWidth⟩ := exists_seenSource h hranked hmember hsource
  rw [recast, hseen]
  exact width_recastFrom (hwidth.trans hseenWidth.symm)

end Graph

/-! ## 3. Words and signs -/

/-- Types that hold words in the same way. -/
def ValueType.Alike (type other : ValueType) : Prop :=
  type.width = other.width ∧ type.isSigned = other.isSigned

theorem ValueType.Alike.trans {a b c : ValueType} (h : a.Alike b) (h' : b.Alike c) : a.Alike c :=
  ⟨h.1.trans h'.1, h.2.trans h'.2⟩

/-- How a word is cut is a matter of width and sign. -/
theorem ValueType.normalize_of_alike {type other : ValueType} (h : type.Alike other) (word : Word) :
    type.normalize word = other.normalize word := by
  unfold normalize
  rw [h.1, h.2]

namespace Constant

variable {c c' : Constant} {type : ValueType}

/-- Read at a type alike, a constant keeps its word. -/
theorem word_castTo_of_alike (h : c.type.Alike type) : (c.castTo type).word = c.word :=
  (ValueType.normalize_of_alike h c.word).symm.trans c.normal

/-- A constant is read at another type by its word alone. -/
theorem castTo_congr (h : c.word = c'.word) (type : ValueType) :
    c.castTo type = c'.castTo type := by
  unfold castTo
  rw [h]

/-- Whether it is zero is a matter of the word, too. -/
theorem isZero_congr (h : c.word = c'.word) : c.isZero = c'.isZero := by
  unfold isZero
  rw [h]

/-- And so are its bits. -/
theorem slice?_congr (h : c.word = c'.word) (high low : Nat) (type : ValueType) :
    c.slice? high low type = c'.slice? high low type := by
  unfold slice?
  rw [h]

/-- A word of one bit without sign is zero or one. -/
theorem word_of_alike_bool (h : c.type.Alike .bool) : c.word = 0 ∨ c.word = 1 := by
  have hnormal : Word.truncate c.word 1 = c.word :=
    (ValueType.normalize_of_alike h c.word).symm.trans c.normal
  have hwhole : ¬ wholeWidth ≤ 1 := by decide
  rw [Word.truncate, if_neg hwhole] at hnormal
  rw [← hnormal]
  generalize BitVec.setWidth 1 c.word = bit
  revert bit
  decide

end Constant

namespace ConstantFolding

variable {c c' : Constant} {type : ValueType}

/-- Conversions depend on the word alone. -/
theorem convert_congr (h : c.word = c'.word) (type : ValueType) :
    convert c type = convert c' type := by
  unfold convert
  rw [Constant.isZero_congr h, Constant.castTo_congr h]

/-- Converted to a type alike, a constant keeps its word.  A truth value is one bit without sign,
which is zero or one already. -/
theorem word_convert_of_alike (h : c.type.Alike type) : (convert c type).word = c.word := by
  unfold convert
  split
  · rename_i hbool
    subst hbool
    rcases Constant.word_of_alike_bool h with hzero | hone
    · simp only [Constant.isZero, hzero]
      decide
    · simp only [Constant.isZero, hone]
      decide
  · exact Constant.word_castTo_of_alike h

/-- Padding with the sign keeps the word of a signed constant. -/
theorem word_signExtend (h : c.type.isSigned = true) (type : ValueType) :
    (signExtend c type).word = (c.castTo type).word := by
  have hsame : (c.castTo (.sint c.type.width)).word = c.word :=
    Constant.word_castTo_of_alike ⟨rfl, h⟩
  unfold signExtend
  rw [Constant.castTo_congr hsame]

/-- Padding with zeros keeps the word of a constant without sign. -/
theorem word_zeroExtend (h : c.type.isSigned = false) (type : ValueType) :
    (zeroExtend c type).word = (c.castTo type).word := by
  have hsame : (c.castTo (.uint c.type.width)).word = c.word :=
    Constant.word_castTo_of_alike ⟨rfl, h⟩
  unfold zeroExtend
  rw [Constant.castTo_congr hsame]

end ConstantFolding

/-- **A cast that keeps the sign of its width makes the same word of a constant however it is
rendered**, if the type it is rendered by is alike the type of the constant. -/
theorem word_recastFrom {source seen type : ValueType} {c c' : Constant} (hword : c.word = c'.word)
    (hc : c.type.Alike source) (hc' : c'.type.Alike source) (hseen : seen.Alike source)
    (hsign : source.width = type.width → source.isSigned = type.isSigned) :
    (ConstantFolding.convert c type).word = (recastFrom seen c' type).word ∧
      (recastFrom seen c' type).type.Alike type := by
  unfold recastFrom
  -- As the rendering goes: the cast is left out, it is a comparison or a truncation, or an
  -- extension by the sign of the type that is seen.
  split
  · rename_i hwidth
    have hsame : source.width = type.width := hseen.1.symm.trans hwidth
    have halike : source.Alike type := ⟨hsame, hsign hsame⟩
    rw [ConstantFolding.word_convert_of_alike (hc.trans halike)]
    exact ⟨hword, hc'.trans halike⟩
  · split
    · rw [ConstantFolding.convert_congr hword]
      exact ⟨rfl, by rw [type_convert]; exact ⟨rfl, rfl⟩⟩
    · rename_i hother
      have hbool : type ≠ .bool := fun heq => hother (Or.inl heq)
      rw [ConstantFolding.convert, if_neg hbool, Constant.castTo_congr hword]
      split
      · rename_i hsigned
        exact ⟨(ConstantFolding.word_signExtend ((hc'.2.trans hseen.2.symm).trans hsigned)
          type).symm,
          rfl, rfl⟩
      · rename_i hunsigned
        have hfalse : seen.isSigned = false := Bool.eq_false_iff.mpr hunsigned
        exact ⟨(ConstantFolding.word_zeroExtend
          ((hc'.2.trans hseen.2.symm).trans hfalse) type).symm,
          rfl, rfl⟩

/-- An operation depends on the words of its arguments and on their widths, which decide what they
are as unsigned words. -/
theorem BuiltIn.eval_congr (op : BuiltIn) (type : ValueType) {values values' : List Constant}
    (h : List.Forall₂ (fun c c' : Constant => c.word = c'.word ∧ c.type.width = c'.type.width)
      values values') : op.eval values type = op.eval values' type := by
  have hunary : ∀ {a a' : Constant}, a.word = a'.word → op.evalUnary a = op.evalUnary a' := by
    intro a a' hword
    unfold evalUnary
    rw [hword]
  have hbinary : ∀ {a a' b b' : Constant}, a.word = a'.word → a.type.width = a'.type.width →
      b.word = b'.word → b.type.width = b'.type.width →
        op.evalBinary a b = op.evalBinary a' b' := by
    intro a a' b b' ha haw hb hbw
    unfold evalBinary Constant.unsignedWord Constant.signedWord
    rw [ha, haw, hb, hbw]
  cases h with
  | nil => rfl
  | cons ha h =>
    cases h with
    | nil => simp only [eval, hunary ha.1]
    | cons hb h =>
      cases h with
      | nil => simp only [eval, hbinary ha.1 ha.2 hb.1 hb.2]
      | cons _ _ => rfl

/-- What an operation yields has the type it is asked for. -/
theorem BuiltIn.type_of_eval {op : BuiltIn} {values : List Constant} {type : ValueType}
    {c : Constant} (h : op.eval values type = some c) : c.type = type := by
  unfold eval at h
  split at h
  · obtain ⟨word, -, rfl⟩ := Option.map_eq_some_iff.mp h
    rfl
  · obtain ⟨word, -, rfl⟩ := Option.map_eq_some_iff.mp h
    rfl
  · exact absurd h (by simp)

/-- And so has a slice. -/
theorem Constant.type_of_slice? {c sliced : Constant} {high low : Nat} {type : ValueType}
    (h : c.slice? high low type = some sliced) : sliced.type = type := by
  obtain ⟨count, -, hsliced⟩ := Option.bind_eq_some_iff.mp h
  rw [← Option.some.inj hsliced]
  rfl

/-! ## 4. Where no sign changes -/

namespace Graph

variable {g : Graph} {c id : NodeId} {payload : Payload} {rank : NodeId → Nat}

/-- **No sign is changed but by a change of width**: a cast between types of one width keeps the
sign, and so does a choice. -/
structure KeepsSigns (g : Graph) : Prop where
  casts : ∀ {id value type source}, g.member? id = some (.typeCast value type) →
    g.typeOf value = some source → source.width = type.width → source.isSigned = type.isSigned
  choices : ∀ {id condition trueCase falseCase choice type source},
    g.member? id = some (.select condition trueCase falseCase type) →
      choice = trueCase ∨ choice = falseCase → g.typeOf choice = some source →
        source.isSigned = type.isSigned

/-- Then a type that is seen is alike the type that is declared. -/
theorem alike_seenType (h : g.Kept) (hranked : g.Ranked rank) (hsigns : g.KeepsSigns)
    (hmember : g.member? id = some payload) {seen type : ValueType}
    (hseen : g.seenType c id = some seen) (htype : g.typeOf id = some type) : seen.Alike type := by
  refine hranked.induct h (P := fun id => ∀ seen type, g.seenType c id = some seen →
    g.typeOf id = some type → seen.Alike type) ?_ hmember seen type hseen htype
  intro id payload hmember ih seen type hseen htype
  rw [seenType_eq_step h hranked hmember] at hseen
  rw [typeOf_eq h hranked hmember] at htype
  cases payload with
  | binding value name => exact ih value (Payload.value_mem_inputEdges rfl) seen type hseen htype
  | typeCast value target =>
    obtain rfl : target = type := Option.some.inj htype
    have hin : value ∈ (Payload.typeCast value target).inputEdges :=
      Payload.value_mem_inputEdges rfl
    obtain ⟨found, hfound, hkind⟩ := h.value_of_mem_inputEdges hmember rfl hin
    obtain ⟨source, hsource, -⟩ := exists_typeOf h hranked hfound hkind
    simp only [seeStep] at hseen
    split at hseen
    · obtain ⟨seenSource, hseenSource, rfl⟩ := Option.map_eq_some_iff.mp hseen
      have halike := ih value hin seenSource source hseenSource hsource
      split
      · rename_i hwidth
        have hsame : source.width = target.width := halike.1.symm.trans hwidth
        exact halike.trans ⟨hsame, hsigns.casts hmember hsource hsame⟩
      · exact ⟨rfl, rfl⟩
    · obtain rfl := Option.some.inj hseen
      exact ⟨rfl, rfl⟩
  | _ =>
    obtain rfl := Option.some.inj (hseen.symm.trans htype)
    exact ⟨rfl, rfl⟩

/-- Two constants a value of a type comes to: they have one word, and types alike the value's. -/
def Agree (type : ValueType) (c c' : Constant) : Prop :=
  c.word = c'.word ∧ c.type.Alike type ∧ c'.type.Alike type

/-- Constants that agree for a type agree for every type alike. -/
theorem Agree.trans {type other : ValueType} {c c' : Constant} (h : Agree type c c')
    (hother : type.Alike other) : Agree other c c' :=
  ⟨h.1, h.2.1.trans hother, h.2.2.trans hother⟩

theorem agree_self {type : ValueType} {c : Constant} (h : c.type = type) : Agree type c c :=
  ⟨rfl, by rw [h]; exact ⟨⟨rfl, rfl⟩, ⟨rfl, rfl⟩⟩⟩

/-- Arguments that are read in two ways are related one by one. -/
theorem forall₂_of_mapM {args : List NodeId} {read read' : NodeId → Option Constant}
    {R : Constant → Constant → Prop} {values values' : List Constant}
    (h : List.Forall₂ (fun target c => read target = some c) args values)
    (h' : List.Forall₂ (fun target c => read' target = some c) args values')
    (himp : ∀ target ∈ args, ∀ c c', read target = some c → read' target = some c' → R c c') :
    List.Forall₂ R values values' := by
  induction h generalizing values' with
  | nil =>
    cases h'
    exact .nil
  | cons hc h ih =>
    cases h' with
    | cons hc' h' =>
      exact .cons (himp _ (by simp) _ _ hc hc')
        (ih h' fun target htarget => himp target (List.mem_cons_of_mem _ htarget))

/-- A constant that does not depend on casts agrees with itself. -/
theorem agree_of_some {type declared : ValueType} {value c c' : Constant}
    (hvalue : value.type = declared) (heval : some value = some c) (hrecast : some value = some c')
    (htype : some declared = some type) : Agree type c c' := by
  obtain rfl := Option.some.inj heval
  obtain rfl := Option.some.inj hrecast
  obtain rfl := Option.some.inj htype
  exact agree_self hvalue

/-- An operation on arguments of the same words and widths yields one constant. -/
theorem agree_builtInCall {args : List NodeId} {read read' : NodeId → Option Constant}
    {op : BuiltIn} {type : ValueType} {c c' : Constant}
    (hreads : ∀ target ∈ args, ∀ c c', read target = some c → read' target = some c' →
      c.word = c'.word ∧ c.type.width = c'.type.width)
    (heval : (args.mapM read).bind (fun values => op.eval values type) = some c)
    (hrecast : (args.mapM read').bind (fun values => op.eval values type) = some c') :
    Agree type c c' := by
  obtain ⟨values, hvalues, hc⟩ := Option.bind_eq_some_iff.mp heval
  obtain ⟨values', hvalues', hc'⟩ := Option.bind_eq_some_iff.mp hrecast
  have hsame := forall₂_of_mapM (mapM_eq_some_iff.mp hvalues) (mapM_eq_some_iff.mp hvalues') hreads
  rw [← op.eval_congr _ hsame, hc] at hc'
  obtain rfl := Option.some.inj hc'
  exact agree_self (BuiltIn.type_of_eval hc)

/-- A case of a choice has a type alike the type of the choice. -/
theorem alike_choice (hsigns : g.KeepsSigns) {condition trueCase falseCase choice : NodeId}
    {type source : ValueType}
    (hmember : g.member? id = some (.select condition trueCase falseCase type))
    (hchoice : choice = trueCase ∨ choice = falseCase)
    (hfits : Payload.Fits g.widthOf choice (· = type.width))
    (hsource : g.typeOf choice = some source) :
    source.Alike type :=
  ⟨width_of_fits hfits hsource, hsigns.choices hmember hchoice hsource⟩

/-- A cast makes constants that agree of constants that agree, be it rendered by the type its
operand declares or by the type it sees. -/
theorem agree_recast (h : g.Kept) (hranked : g.Ranked rank) (hsigns : g.KeepsSigns) {value : NodeId}
    {type source : ValueType} {b b' : Constant}
    (hmember : g.member? id = some (.typeCast value type)) (hsource : g.typeOf value = some source)
    (hagree : Agree source b b') :
    Agree type (ConstantFolding.convert b type) (g.recast id b' type) := by
  obtain ⟨hword, halike, halike'⟩ := hagree
  obtain ⟨seen, hseen, -⟩ := exists_seenSource h hranked hmember hsource
  obtain ⟨found, hfound⟩ := h.member?_of_mem_inputEdges hmember (Payload.value_mem_inputEdges rfl)
  have hseen' : g.seenType id value = some seen := by rwa [seenSource, hmember] at hseen
  obtain ⟨hsame, hfits⟩ := word_recastFrom hword halike halike'
    (alike_seenType h hranked hsigns hfound hseen' hsource) (hsigns.casts hmember hsource)
  rw [recast, hseen]
  exact ⟨hsame, by rw [type_convert]; exact ⟨rfl, rfl⟩, hfits⟩

/-- **Where no sign changes, rendering casts by the types they see changes no word.** -/
theorem recast_agrees (h : g.Kept) (hranked : g.Ranked rank) (hkinds : g.checkKinds = .empty)
    (hsigns : g.KeepsSigns) (ρ : Assignment) (hmember : g.member? id = some payload)
    (hvalue : payload.kind.isA .value = true) {c c' : Constant} {type : ValueType}
    (heval : ρ.eval g id = some c) (hrecast : ρ.evalRecast g id = some c')
    (htype : g.typeOf id = some type) : Agree type c c' := by
  refine hranked.induct h (P := fun id => ∀ payload, g.member? id = some payload →
    payload.kind.isA .value = true → ∀ c c' type, ρ.eval g id = some c →
      ρ.evalRecast g id = some c' → g.typeOf id = some type → Agree type c c')
    ?_ hmember payload hmember hvalue c c' type heval hrecast htype
  intro id payload hmember ih found hfound hkind c c' type heval hrecast htype
  rw [hmember] at hfound
  obtain rfl := Option.some.inj hfound
  have hreads : ∀ target ∈ payload.inputEdges, ∃ source, g.typeOf target = some source ∧
      ∀ c c', ρ.eval g target = some c → ρ.evalRecast g target = some c' → Agree source c c' := by
    intro target htarget
    obtain ⟨found, hfound, hkind'⟩ := h.value_of_mem_inputEdges hmember hkind htarget
    obtain ⟨source, hsource, -⟩ := exists_typeOf h hranked hfound hkind'
    exact ⟨source, hsource, fun c c' hc hc' =>
      ih target htarget found hfound hkind' c c' source hc hc' hsource⟩
  have hobeys := lawful_of_checkKinds hkinds hmember
  rw [Assignment.eval, eval_eq_step h hranked hmember] at heval
  rw [Assignment.evalRecast, eval_eq_step h hranked hmember] at hrecast
  rw [typeOf_eq h hranked hmember] at htype
  cases payload with
  | const constant => exact agree_of_some rfl heval hrecast htype
  | param name declared => exact agree_of_some (ρ.param name declared).property heval hrecast htype
  | field name declared => exact agree_of_some (ρ.field name declared).property heval hrecast htype
  | funcCall _ _ declared | readReg _ declared | readRegFile _ _ declared
  | readMem _ _ _ declared =>
    exact agree_of_some (ρ.node id declared).property heval hrecast htype
  | binding value name =>
    obtain ⟨source, hsource, hagree⟩ := hreads value (Payload.value_mem_inputEdges rfl)
    obtain rfl := Option.some.inj (hsource.symm.trans htype)
    exact hagree c c' heval hrecast
  | builtInCall args op declared =>
    obtain rfl := Option.some.inj htype
    refine agree_builtInCall (fun target htarget c c' hc hc' => ?_) heval hrecast
    obtain ⟨source, -, hagree⟩ := hreads target (Payload.mem_inputEdges_builtInCall.mpr htarget)
    obtain ⟨hword, hwidth, hwidth'⟩ := hagree c c' hc hc'
    exact ⟨hword, hwidth.1.trans hwidth'.1.symm⟩
  | select condition trueCase falseCase declared =>
    obtain rfl := Option.some.inj htype
    obtain ⟨-, htrueCase, hfalseCase⟩ := hobeys
    obtain ⟨source, -, hcondition⟩ := hreads condition (by simp)
    obtain ⟨yesType, hyesType, hyes⟩ := hreads trueCase (by simp)
    obtain ⟨noType, hnoType, hno⟩ := hreads falseCase (by simp)
    obtain ⟨b, hb, hc⟩ := Option.bind_eq_some_iff.mp heval
    obtain ⟨b', hb', hc'⟩ := Option.bind_eq_some_iff.mp hrecast
    rw [← Constant.isZero_congr (hcondition b b' hb hb').1] at hc'
    split at hc
    · rename_i hzero
      rw [if_pos hzero] at hc'
      exact (hno c c' hc hc').trans (alike_choice hsigns hmember (Or.inr rfl) hfalseCase hnoType)
    · rename_i hzero
      rw [if_neg hzero] at hc'
      exact (hyes c c' hc hc').trans (alike_choice hsigns hmember (Or.inl rfl) htrueCase hyesType)
  | slice value high low declared =>
    obtain rfl := Option.some.inj htype
    obtain ⟨source, -, hagree⟩ := hreads value (Payload.value_mem_inputEdges rfl)
    obtain ⟨b, hb, hc⟩ := Option.bind_eq_some_iff.mp heval
    obtain ⟨b', hb', hc'⟩ := Option.bind_eq_some_iff.mp hrecast
    rw [← Constant.slice?_congr (hagree b b' hb hb').1, hc] at hc'
    obtain rfl := Option.some.inj hc'
    exact agree_self (Constant.type_of_slice? hc)
  | zeroExtend value declared | signExtend value declared | truncate value declared =>
    obtain rfl := Option.some.inj htype
    obtain ⟨source, -, hagree⟩ := hreads value (Payload.value_mem_inputEdges rfl)
    obtain ⟨b, hb, rfl⟩ := Option.map_eq_some_iff.mp heval
    obtain ⟨b', hb', rfl⟩ := Option.map_eq_some_iff.mp hrecast
    obtain ⟨hword, hwidth, hwidth'⟩ := hagree b b' hb hb'
    have hsame : b.type.width = b'.type.width := hwidth.1.trans hwidth'.1.symm
    refine ⟨?_, ⟨rfl, rfl⟩, ⟨rfl, rfl⟩⟩
    simp only [ConstantFolding.zeroExtend, ConstantFolding.signExtend,
      Constant.castTo, hword, hsame]
  | typeCast value declared =>
    obtain rfl := Option.some.inj htype
    obtain ⟨source, hsource, hagree⟩ := hreads value (Payload.value_mem_inputEdges rfl)
    obtain ⟨b, hb, rfl⟩ := Option.map_eq_some_iff.mp heval
    obtain ⟨b', hb', rfl⟩ := Option.map_eq_some_iff.mp hrecast
    exact agree_recast h hranked hsigns hmember hsource (hagree b b' hb hb')
  | _ => exact Bool.noConfusion hkind

/-- **In a consistent graph a value comes to a constant both ways, and the widths agree.** -/
theorem exists_eval_evalRecast (h : g.Kept) (hranked : g.Ranked rank)
    (hkinds : g.checkKinds = .empty)
    (hsized : g.Sized) (ρ : Assignment) (hmember : g.member? id = some payload)
    (hvalue : payload.kind.isA .value = true) :
    ∃ c c', ρ.eval g id = some c ∧ ρ.evalRecast g id = some c' ∧ c.type.width = c'.type.width := by
  obtain ⟨c, type, hc, htype, hwidth⟩ :=
    evaluates (ρ := ρ) h hranked hkinds hsized (castsFit_convert g) hmember hvalue
  obtain ⟨c', type', hc', htype', hwidth'⟩ :=
    evaluates (ρ := ρ) h hranked hkinds hsized (castsFit_recast h hranked) hmember hvalue
  obtain rfl := Option.some.inj (htype.symm.trans htype')
  exact ⟨c, c', hc, hc', hwidth.trans hwidth'.symm⟩

end Graph

/-- Two values are constants of one width, and have the same bits of that width. -/
def SameBits (a b : Option Constant) : Prop :=
  ∃ c c', a = some c ∧ b = some c' ∧ c.type.width = c'.type.width ∧
    c.word.setWidth c.type.width = c'.word.setWidth c.type.width

/-- **Where no sign changes, a value has the same bits both ways.** -/
theorem Graph.sameBits_of_keepsSigns {g : Graph} {id : NodeId} {payload : Payload}
    {rank : NodeId → Nat} (h : g.Kept) (hranked : g.Ranked rank) (hkinds : g.checkKinds = .empty)
    (hsized : g.Sized) (hsigns : g.KeepsSigns) (ρ : Assignment)
    (hmember : g.member? id = some payload) (hvalue : payload.kind.isA .value = true) :
    SameBits (ρ.eval g id) (ρ.evalRecast g id) := by
  obtain ⟨c, c', hc, hc', hwidth⟩ := exists_eval_evalRecast h hranked hkinds hsized ρ hmember hvalue
  obtain ⟨type, htype, -⟩ := exists_typeOf h hranked hmember hvalue
  obtain ⟨hword, -, -⟩ := recast_agrees h hranked hkinds hsigns ρ hmember hvalue hc hc' htype
  exact ⟨c, c', hc, hc', hwidth, by rw [hword]⟩

end BehaviorGraph
