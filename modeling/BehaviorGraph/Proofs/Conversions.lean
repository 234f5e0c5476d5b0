/-
# Conversions of constants

Slices, extensions, truncations and casts of constants are folded by shifting the word of the
constant and normalizing it at other types.  This module says which bits come out: **what a
conversion does to the bits of its operand it does to bit vectors** (`Graph.conversions_select`).
That needs types that are cut, up to 126 bits: a slice shifts in copies of the word's own sign,
which are not bits of the operand, and only the cut removes them.

That a conversion yields a constant at all needs no such bound.  The bits of a slice are counted in
32 bits, and the rules for slices see to it that they fit (`Graph.conversion_yields`).
-/
import BehaviorGraph.Proofs.Arithmetic
import Mathlib

namespace BehaviorGraph

/-! ## 1. Bits of words -/

section Bits

variable {u v w m low : Nat}

theorem setWidth_signExtend_of_le (x : BitVec w) (h : m ≤ v) :
    (x.signExtend v).setWidth m = x.signExtend m := by
  ext i hi
  rw [BitVec.getElem_setWidth, BitVec.getLsbD_eq_getElem (by omega), BitVec.getElem_signExtend,
    BitVec.getElem_signExtend]

/-- Shifting right selects bits from `low` on, as long as they are bits of the number. -/
theorem setWidth_sshiftRight (x : BitVec v) (h : low + m ≤ w) (hw : w ≤ v) :
    (x.sshiftRight low).setWidth m = (x.setWidth w).extractLsb' low m := by
  ext i hi
  rw [BitVec.getElem_setWidth, BitVec.getLsbD_sshiftRight, if_pos (by omega),
    decide_eq_false (by omega), BitVec.getElem_extractLsb', BitVec.getLsbD_setWidth,
      decide_eq_true (by omega)]
  rfl

/-- Selecting from what was selected adds the offsets. -/
theorem extractLsb'_extractLsb' (x : BitVec w) {low' : Nat} (h : low' + m ≤ u) :
    (x.extractLsb' low u).extractLsb' low' m = x.extractLsb' (low + low') m := by
  ext i hi
  rw [BitVec.getElem_extractLsb', BitVec.getLsbD_extractLsb', BitVec.getElem_extractLsb',
    decide_eq_true (by omega), Bool.true_and, Nat.add_assoc]

end Bits

/-! ## 2. Slices -/

namespace Constant

variable {c : Constant} {high low high' low' v : Nat} {type type' : ValueType}

/-- **A slice of bits that the constant has holds these bits.** -/
theorem slice?_eq (hlow : low ≤ high) (hhigh : high < v) (hv : v ≤ 126) (type : ValueType) :
    c.slice? high low type
      = some (ofWord (((c.lowBits v).extractLsb' low (high - low + 1)).setWidth 128) type) := by
  have hcount : sliceWidth? high low = some (high - low + 1) := by
    rw [sliceWidth?]
    exact if_pos (by unfold widthLimit; omega)
  have hcut : ¬ wholeWidth ≤ high - low + 1 := not_wholeWidth_le_iff.mpr (by omega)
  have hshift : ¬ 128 ≤ low := by omega
  simp only [slice?, hcount, Option.bind_eq_bind, Option.bind_some, if_neg hshift,
    Word.truncate, if_neg hcut]
  rw [setWidth_sshiftRight c.word (by omega) (hv.trans (by omega))]
  rfl

/-- **A slice of a slice is one slice at the added offsets.** -/
theorem slice?_slice? (hlow : low ≤ high) (hhigh : high < v) (hv : v ≤ 126)
    (htype : type.width = high - low + 1) (hlow' : low' ≤ high') (hhigh' : high' ≤ high - low)
    (type' : ValueType) :
    (c.slice? high low type).bind (·.slice? high' low' type')
      = c.slice? (low + high') (low + low') type' := by
  have hbits : (ofWord (((c.lowBits v).extractLsb' low (high - low + 1)).setWidth 128) type).lowBits
      (high - low + 1) = (c.lowBits v).extractLsb' low (high - low + 1) := by
    rw [lowBits_ofWord htype, BitVec.setWidth_setWidth_of_le _ (by omega), BitVec.setWidth_eq]
  have hcount : low + high' - (low + low') + 1 = high' - low' + 1 := by omega
  rw [slice?_eq hlow hhigh hv, Option.bind_some, slice?_eq hlow' (Nat.lt_succ_of_le hhigh')
    (by omega), hbits,
    extractLsb'_extractLsb' _ (by omega), slice?_eq (by omega)
      (by omega : low + high' < v) hv, hcount]

/-- A constant is its bits, padded as its type says. -/
theorem word_eq (h : c.type.width ≤ 126) :
    c.word = if c.type.isSigned then (c.lowBits c.type.width).signExtend 128
      else (c.lowBits c.type.width).setWidth 128 := by
  have hcut := not_wholeWidth_le_iff.mpr h
  -- The word is normal already, and normalizing pads the bits.
  have hnormal := c.normal
  simp only [ValueType.normalize, Word.extend, Word.truncate, if_neg hcut] at hnormal
  exact hnormal.symm

end Constant

/-! ## 3. Conversions step by step -/

/-- The operand of a conversion. -/
def Payload.converted? : Payload → Option NodeId
  | slice value _ _ _ | zeroExtend value _ | signExtend value _ | truncate value _
  | typeCast value _ => some value
  | _ => none

/-- The word of a constant, shifted down to the bit `low`. -/
def Constant.shifted? (c : Constant) (low : Nat) : Option Word :=
  if 128 ≤ low then some 0 else BuiltIn.shiftRight? c.word low

theorem Constant.shifted?_eq (c : Constant) (low : Nat) :
    c.shifted? low = some (if 128 ≤ low then 0 else c.word.sshiftRight low) := by
  unfold shifted? BuiltIn.shiftRight?
  by_cases hlow : 128 ≤ low
  · rw [if_pos hlow, if_pos hlow]
  · rw [if_neg hlow, if_neg hlow, if_pos (Nat.lt_of_not_le hlow)]

namespace ConstantFolding

variable {g : Graph} {payload : Payload} {value : NodeId} {c : Constant}

/-- **Converting a constant in signed arithmetic**, to the word of the result; `none` where a
number does not fit, and for payloads that convert nothing. -/
def convert? (c : Constant) : Payload → Option Word
  | .slice _ high low type => do
    let count ← Constant.sliceWidth? high low
    let shifted ← c.shifted? low
    let bits ← Word.truncate? shifted count
    type.normalize? bits
  | .zeroExtend _ type => do
    let bits ← (ValueType.uint c.type.width).normalize? c.word
    type.normalize? bits
  | .signExtend _ type => do
    let bits ← c.signed?
    type.normalize? bits
  | .truncate _ type => type.normalize? c.word
  | .typeCast _ type =>
    if type = .bool then type.normalize? (BuiltIn.flag !c.isZero) else type.normalize? c.word
  | _ => none

/-- The steps of a slice fit if the number of its bits does. -/
theorem convert?_slice (c : Constant) (value : NodeId) (high low : Nat) (type : ValueType) :
    convert? c (.slice value high low type) = (c.slice? high low type).map (·.word) := by
  simp only [convert?, Constant.slice?, Constant.shifted?_eq, Word.truncate?_eq,
    ValueType.normalize?_eq, Option.bind_eq_bind, Option.bind_some]
  cases Constant.sliceWidth? high low with
  | none => rfl
  | some count => rfl

/-- **Folding a conversion takes the steps, and only the number of bits of a slice may overflow.**
-/
theorem exists_converted (hconverted : payload.converted? = some value)
    (hvalue : g.constantOf value = some c) :
    ∃ folded : Option Constant, foldPayload g payload = folded.map .constant ∧
      convert? c payload = folded.map (·.word) := by
  cases payload with
  | slice operand high low type =>
    obtain rfl := Option.some.inj hconverted
    exact ⟨c.slice? high low type, by rw [foldPayload, hvalue], convert?_slice c _ high low type⟩
  | zeroExtend operand type =>
    obtain rfl := Option.some.inj hconverted
    refine ⟨some (zeroExtend c type), by rw [foldPayload, hvalue]; rfl, ?_⟩
    rw [convert?, ValueType.normalize?_eq, Option.bind_eq_bind, Option.bind_some,
      ValueType.normalize?_eq]
    rfl
  | signExtend operand type =>
    obtain rfl := Option.some.inj hconverted
    refine ⟨some (signExtend c type), by rw [foldPayload, hvalue]; rfl, ?_⟩
    rw [convert?, Constant.signed?_eq, Option.bind_eq_bind, Option.bind_some,
      ValueType.normalize?_eq]
    rfl
  | truncate operand type =>
    obtain rfl := Option.some.inj hconverted
    exact ⟨some (c.castTo type), by rw [foldPayload, hvalue]; rfl, ValueType.normalize?_eq _ _⟩
  | typeCast operand type =>
    obtain rfl := Option.some.inj hconverted
    refine ⟨some (convert c type), by rw [foldPayload, hvalue]; rfl, ?_⟩
    rw [convert?, convert]
    by_cases hbool : type = .bool
    · subst hbool
      rw [if_pos rfl, if_pos rfl, ValueType.normalize?_eq]
      cases c.isZero with
      | true => rfl
      | false => rfl
    · rw [if_neg hbool, if_neg hbool, ValueType.normalize?_eq]
      rfl
  | _ => exact absurd hconverted (by simp [Payload.converted?])

end ConstantFolding

namespace Graph

variable {g : Graph} {id value : NodeId} {payload : Payload} {c : Constant} {type : ValueType}

/-- **A conversion that there is nothing to complain about yields a constant**, whatever the
widths. -/
theorem conversion_yields (hpayload : g.payload? id = some payload) (herrors : g.kindErrors id = [])
    (hsized : ∀ type, payload.declaredType = some type → type.width < Constant.widthLimit)
    (hconverted : payload.converted? = some value) (hvalue : g.constantOf value = some c) :
    ∃ result : Constant, ConstantFolding.foldPayload g payload = some (.constant result) ∧
      ConstantFolding.convert? c payload = some result.word := by
  have hobeys := (kindErrors_eq_nil_iff hpayload).mp herrors
  obtain ⟨folded, hfold, hsteps⟩ := ConstantFolding.exists_converted hconverted hvalue
  cases folded with
  | none => exact absurd hfold (foldPayload_ne_none hobeys hsized)
  | some result => exact ⟨result, hfold, hsteps⟩

/-! ## 4. The bits of conversions -/

/-- **A payload is folded to a constant of a type with these bits.** -/
def FoldsTo (g : Graph) (payload : Payload) (type : ValueType) (bits : BitVec type.width) : Prop :=
  ∃ result : Constant, ConstantFolding.foldPayload g payload = some (.constant result) ∧
    result.type = type ∧ result.lowBits type.width = bits

theorem foldsTo_of_word (word : Word) {bits : BitVec type.width}
    (hfold : ConstantFolding.foldPayload g payload = some (.constant (.ofWord word type)))
    (hbits : word.setWidth type.width = bits) : g.FoldsTo payload type bits :=
  ⟨_, hfold, rfl, (Constant.lowBits_ofWord rfl word).trans hbits⟩

section Operand

variable (hvalue : g.constantOf value = some c)
include hvalue

theorem foldsTo_slice (hwidth : c.type.width ≤ 126) {high low : Nat} (hlow : low ≤ high)
    (hhigh : high < c.type.width) (htype : type.width = high - low + 1) :
    g.FoldsTo (.slice value high low type) type
      ((c.lowBits c.type.width).extractLsb' low type.width) := by
  have hslice := Constant.slice?_eq (c := c) hlow hhigh hwidth type
  rw [← htype] at hslice
  have hfold := congrArg (Option.map ConstantFolding.Fold.constant) hslice
  refine foldsTo_of_word _ (by rw [ConstantFolding.foldPayload, hvalue]; exact hfold) ?_
  rw [BitVec.setWidth_setWidth_of_le _ (by omega), BitVec.setWidth_eq]

theorem foldsTo_zeroExtend (hwidth : c.type.width ≤ 126) (htype : type.width ≤ 126) :
    g.FoldsTo (.zeroExtend value type) type ((c.lowBits c.type.width).setWidth type.width) := by
  refine foldsTo_of_word c.unsignedWord (by rw [ConstantFolding.foldPayload, hvalue]; rfl) ?_
  rw [Constant.unsignedWord, Word.truncate, if_neg (not_wholeWidth_le_iff.mpr hwidth)]
  exact BitVec.setWidth_setWidth_of_le _ (by omega)

theorem foldsTo_signExtend (hwidth : c.type.width ≤ 126) (htype : type.width ≤ 126) :
    g.FoldsTo (.signExtend value type) type ((c.lowBits c.type.width).signExtend type.width) := by
  refine foldsTo_of_word c.signedWord (by rw [ConstantFolding.foldPayload, hvalue]; rfl) ?_
  rw [Constant.signedWord, Word.extend, if_neg (not_wholeWidth_le_iff.mpr hwidth)]
  exact setWidth_signExtend_of_le _ (by omega)

theorem foldsTo_truncate (hle : type.width ≤ c.type.width) :
    g.FoldsTo (.truncate value type) type ((c.lowBits c.type.width).setWidth type.width) := by
  refine foldsTo_of_word c.word (by rw [ConstantFolding.foldPayload, hvalue]; rfl) ?_
  exact (BitVec.setWidth_setWidth_of_le _ hle).symm

theorem foldsTo_bool :
    g.FoldsTo (.typeCast value .bool) .bool (BitVec.ofBool (decide (c.value ≠ 0))) := by
  have hzero : c.word = 0 ↔ c.value = 0 := BitVec.toInt_inj.symm
  refine foldsTo_of_word _ (by rw [ConstantFolding.foldPayload, hvalue]; rfl) ?_
  rw [Constant.isZero, decide_eq_decide.mpr hzero, decide_not]
  cases decide (c.value = 0) with
  | true => rfl
  | false => rfl

theorem foldsTo_typeCast (hwidth : c.type.width ≤ 126) (htype : type.width ≤ 126)
    (hbool : type ≠ .bool) :
    g.FoldsTo (.typeCast value type) type (if c.type.isSigned
      then (c.lowBits c.type.width).signExtend type.width
      else (c.lowBits c.type.width).setWidth type.width) := by
  have hconvert : ConstantFolding.convert c type = c.castTo type := if_neg hbool
  refine foldsTo_of_word c.word
    (by rw [ConstantFolding.foldPayload, hvalue, Option.map_some, hconvert]; rfl) ?_
  rw [Constant.word_eq hwidth]
  split
  · exact setWidth_signExtend_of_le _ (by omega)
  · exact BitVec.setWidth_setWidth_of_le _ (by omega)

end Operand

/-- **Folded conversions select the right bits.**

Of a constant operand and a type that are both cut, a slice holds the bits between its bounds, an
extension pads the bits of the operand with zeros or with the highest of them, a truncation keeps
the low ones, and a cast tells zero from the rest for a truth value and else extends or truncates
by the sign of the operand.  Slicing a slice is slicing once.  Whatever the widths, a conversion
that there is nothing to complain about yields a constant and overflows in none of its steps. -/
theorem conversions_select (g : Graph) :
    (∀ value c, g.constantOf value = some c → c.type.width ≤ 126 →
      (∀ type : ValueType, type.width ≤ 126 →
        (∀ high low, low ≤ high → high < c.type.width → type.width = high - low + 1 →
          g.FoldsTo (.slice value high low type) type
            ((c.lowBits c.type.width).extractLsb' low type.width)) ∧
        (c.type.width ≤ type.width →
          g.FoldsTo (.zeroExtend value type) type ((c.lowBits c.type.width).setWidth type.width)) ∧
        (1 ≤ c.type.width → c.type.width ≤ type.width →
          g.FoldsTo (.signExtend value type) type
            ((c.lowBits c.type.width).signExtend type.width)) ∧
        (type.width ≤ c.type.width →
          g.FoldsTo (.truncate value type) type ((c.lowBits c.type.width).setWidth type.width)) ∧
        (type ≠ .bool → g.FoldsTo (.typeCast value type) type
          (if c.type.isSigned then (c.lowBits c.type.width).signExtend type.width
            else (c.lowBits c.type.width).setWidth type.width))) ∧
      g.FoldsTo (.typeCast value .bool) .bool (BitVec.ofBool (decide (c.value ≠ 0)))) ∧
    (∀ (c : Constant) (high low high' low' : Nat) (type type' : ValueType), c.type.width ≤ 126 →
      low ≤ high → high < c.type.width → type.width = high - low + 1 → low' ≤ high' →
        high' < type.width →
        (c.slice? high low type).bind (·.slice? high' low' type')
          = c.slice? (low + high') (low + low') type') ∧
    (∀ id payload value c, g.payload? id = some payload → g.kindErrors id = [] →
      (∀ type, payload.declaredType = some type → type.width < Constant.widthLimit) →
      payload.converted? = some value → g.constantOf value = some c →
        ∃ result : Constant, ConstantFolding.foldPayload g payload = some (.constant result) ∧
          ConstantFolding.convert? c payload = some result.word) := by
  refine ⟨fun value c hvalue hwidth => ⟨fun type htype => ⟨?_, ?_, ?_, ?_, ?_⟩,
    foldsTo_bool hvalue⟩, ?_, ?_⟩
  · intro high low hlow hhigh hcount
    exact foldsTo_slice hvalue hwidth hlow hhigh hcount
  · intro _
    exact foldsTo_zeroExtend hvalue hwidth htype
  · intro _ _
    exact foldsTo_signExtend hvalue hwidth htype
  · exact foldsTo_truncate hvalue
  · exact foldsTo_typeCast hvalue hwidth htype
  · intro c high low high' low' type type' hwidth hlow hhigh htype hlow' hhigh'
    exact Constant.slice?_slice? hlow hhigh hwidth htype hlow' (by omega) type'
  · intro id payload value c hpayload herrors hsized hconverted hvalue
    exact conversion_yields hpayload herrors hsized hconverted hvalue

/-- A number of 8 bits and the widest value there is, of which a slice takes all bits. -/
def widest : Graph :=
  (Graph.add (.slice ⟨1⟩ 4294967294 0 (.bits 4294967295))
    (Graph.add (.const (.ofInt (-1) (.bits 4294967295)))
      (Graph.add (.const (.ofInt 200 (.sint 8))) (.empty "f")).state).state).state

/-- Bits 7 to 4 of -56 are 12; at 16 bits an extension with the sign and a cast repeat the sign,
whatever the type they are for, and an extension with zeros does not; the widest slice of the
widest value has a constant. -/
theorem conversions_select_widest :
    widest.FoldsTo (.slice ⟨0⟩ 7 4 (.sint 4)) (.sint 4) 0xC#4 ∧
    widest.FoldsTo (.signExtend ⟨0⟩ (.sint 16)) (.sint 16) 0xFFC8#16 ∧
    widest.FoldsTo (.typeCast ⟨0⟩ (.uint 16)) (.uint 16) 0xFFC8#16 ∧
    widest.FoldsTo (.zeroExtend ⟨0⟩ (.uint 16)) (.uint 16) 0x00C8#16 ∧
    (∃ result : Constant,
      ConstantFolding.foldPayload widest (.slice ⟨1⟩ 4294967294 0 (.bits 4294967295))
        = some (.constant result)) := by
  have hvalue : widest.constantOf ⟨0⟩ = some (.ofInt 200 (.sint 8)) := by cbv
  have hwide : widest.constantOf ⟨1⟩ = some (.ofInt (-1) (.bits 4294967295)) := by cbv
  have hpayload : widest.payload? ⟨2⟩ = some (.slice ⟨1⟩ 4294967294 0 (.bits 4294967295)) := by cbv
  have herrors : widest.kindErrors ⟨2⟩ = [] := by cbv
  obtain ⟨hbits, -, hyields⟩ := conversions_select widest
  obtain ⟨hconverts, -⟩ := hbits ⟨0⟩ _ hvalue (by decide)
  refine ⟨(hconverts (.sint 4) (by decide)).1 7 4 (by decide) (by decide) rfl,
    (hconverts (.sint 16) (by decide)).2.2.1 (by decide) (by decide),
    (hconverts (.uint 16) (by decide)).2.2.2.2 (by decide),
    (hconverts (.uint 16) (by decide)).2.1 (by decide), ?_⟩
  obtain ⟨result, hresult, -⟩ :=
    hyields ⟨2⟩ _ ⟨1⟩ _ hpayload herrors (by rintro type ⟨⟩; decide) rfl hwide
  exact ⟨result, hresult⟩

end Graph

end BehaviorGraph
