/-
# Built-in operations as arithmetic

Constants are computed with in words of 128 bits, whatever their types.  This module compares that
with two other ways to compute: with the numbers themselves, exactly (`BuiltIn.number?`), and with
bit vectors of the width all types share (`BuiltIn.onBits?`).  For types that are cut, up to 126
bits, **an operation yields the constant of the exact number** (`eval_eq_number`), because a word
is what is left of a number modulo two to the 128.

A shift reads its amount without a sign and however large it is; from 128 places on words have
nothing left to shift, and neither have exact numbers of that size.
-/
import BehaviorGraph.Proofs.Evaluation
import BehaviorGraph.Proofs.Words
import Mathlib

namespace BehaviorGraph

/-! ## 1. Bits of exact results

The bits of a sum, a product and so on are those of the operands, added and multiplied as bit
vectors. -/

section Bits

variable {w : Nat}

theorem getElem_ofInt (n : Int) {i : Nat} (hi : i < w) : (BitVec.ofInt w n)[i] = n.testBit i := by
  have hnat : ∀ n : Nat, (BitVec.ofNat w n)[i] = n.testBit i := by
    intro n
    rw [← BitVec.getLsbD_eq_getElem, BitVec.getLsbD_ofNat, decide_eq_true hi, Bool.true_and]
  cases n with
  | ofNat n => simp [Int.testBit, hnat]
  | negSucc n => simp [Int.testBit, hnat]

theorem ofInt_land (m n : Int) :
    BitVec.ofInt w (m.land n) = BitVec.ofInt w m &&& BitVec.ofInt w n := by
  ext i hi
  rw [BitVec.getElem_and, getElem_ofInt, getElem_ofInt, getElem_ofInt, Int.testBit_land]

theorem ofInt_lor (m n : Int) :
    BitVec.ofInt w (m.lor n) = BitVec.ofInt w m ||| BitVec.ofInt w n := by
  ext i hi
  rw [BitVec.getElem_or, getElem_ofInt, getElem_ofInt, getElem_ofInt, Int.testBit_lor]

theorem ofInt_xor (m n : Int) :
    BitVec.ofInt w (m.xor n) = BitVec.ofInt w m ^^^ BitVec.ofInt w n := by
  ext i hi
  rw [BitVec.getElem_xor, getElem_ofInt, getElem_ofInt, getElem_ofInt, Int.testBit_lxor]

theorem ofInt_lnot (n : Int) : BitVec.ofInt w n.lnot = ~~~BitVec.ofInt w n := by
  ext i hi
  rw [BitVec.getElem_not, getElem_ofInt, getElem_ofInt, Int.testBit_lnot]

theorem ofInt_sub (m n : Int) : BitVec.ofInt w (m - n) = BitVec.ofInt w m - BitVec.ofInt w n := by
  rw [sub_eq_add_neg, BitVec.ofInt_add, BitVec.ofInt_neg, BitVec.sub_eq_add_neg]

/-- Multiplying by a power of two is shifting left. -/
theorem ofInt_mul_two_pow (m : Int) (places : Nat) :
    BitVec.ofInt w (m * 2 ^ places) = BitVec.ofInt w m <<< places := by
  have hpower : BitVec.ofInt w (2 ^ places) = BitVec.twoPow w places := by
    refine BitVec.eq_of_toNat_eq ?_
    rw [BitVec.toNat_twoPow, ← BitVec.toNat_ofNat, ← BitVec.ofInt_natCast]
    push_cast
    rfl
  rw [BitVec.ofInt_mul, BitVec.shiftLeft_eq_mul_twoPow, hpower]

/-- Dividing by a power of two is shifting right, with the sign of the number. -/
theorem ofInt_toInt_div (x : BitVec w) (places : Nat) :
    BitVec.ofInt w (x.toInt / 2 ^ places) = x.sshiftRight places := by
  rw [BitVec.sshiftRight_eq, Int.shiftRight_eq_div_pow]
  push_cast
  rfl

theorem ofInt_toNat_div (x : BitVec w) (places : Nat) :
    BitVec.ofInt w (x.toNat / 2 ^ places) = x >>> places := by
  refine BitVec.eq_of_toNat_eq ?_
  have hnat : (x.toNat : Int) / 2 ^ places = ((x.toNat / 2 ^ places : Nat) : Int) := by
    push_cast; rfl
  rw [hnat, BitVec.ofInt_natCast, BitVec.toNat_ofNat, BitVec.toNat_ushiftRight,
    Nat.shiftRight_eq_div_pow]
  exact Nat.mod_eq_of_lt ((Nat.div_le_self _ _).trans_lt x.isLt)

/-- A shift to the right by the whole width leaves nothing but the sign. -/
theorem sshiftRight_of_le (x : BitVec w) {places : Nat} (h : w ≤ places) :
    x.sshiftRight places = if x.msb then BitVec.allOnes w else 0#w := by
  ext i hi
  rw [BitVec.getElem_sshiftRight, dif_neg (by omega)]
  cases x.msb with
  | true => simp
  | false => simp

theorem ofInt_toInt_bool (b : Bool) : BitVec.ofInt w b.toInt = (BitVec.ofBool b).setWidth w := by
  cases b with
  | false => simp
  | true => exact BitVec.eq_of_toNat_eq (by simp)

end Bits

/-! ## 2. Exact evaluation -/

namespace Constant

/-- The number of a constant's bits without a sign. -/
def unsigned (c : Constant) : Int := c.value % 2 ^ c.type.width

/-- The number of a constant's bits in two's complement: the remainder nearest to zero. -/
def signed (c : Constant) : Int := c.value.bmod (2 ^ c.type.width)

variable {c : Constant}

theorem unsigned_nonneg (c : Constant) : 0 ≤ c.unsigned := Int.emod_nonneg _ (by positivity)

theorem toInt_unsignedWord (h : c.type.width ≤ 126) : c.unsignedWord.toInt = c.unsigned :=
  Word.toInt_truncate c.word h

theorem toInt_signedWord (h : c.type.width ≤ 126) : c.signedWord.toInt = c.signed :=
  Word.toInt_extend c.word h

theorem msb_unsignedWord (h : c.type.width ≤ 126) : c.unsignedWord.msb = false := by
  rw [BitVec.msb_eq_toInt, toInt_unsignedWord h, decide_eq_false_iff_not]
  exact (unsigned_nonneg c).not_gt

theorem toNat_unsignedWord (h : c.type.width ≤ 126) : c.unsignedWord.toNat = c.unsigned.toNat := by
  rw [← toInt_unsignedWord h, BitVec.toInt_eq_toNat_of_msb (msb_unsignedWord h), Int.toNat_natCast]

end Constant

namespace BuiltIn

/-- **The number an operation yields in exact arithmetic**, or `none` if the number of arguments is
wrong.  Bitwise operations see a number as its infinite two's complement, and division rounds down.
-/
@[simp] def number? (op : BuiltIn) (args : List Constant) : Option Int :=
  match op, args with
  | add, [a, b] => some (a.value + b.value)
  | sub, [a, b] => some (a.value - b.value)
  | mul, [a, b] => some (a.value * b.value)
  | and, [a, b] => some (a.value.land b.value)
  | or, [a, b] => some (a.value.lor b.value)
  | xor, [a, b] => some (a.value.xor b.value)
  | not, [a] => some a.value.lnot
  | neg, [a] => some (-a.value)
  | lsl, [a, b] => some (a.value * 2 ^ b.unsigned.toNat)
  | lsr, [a, b] => some (a.unsigned / 2 ^ b.unsigned.toNat)
  | asr, [a, b] => some (a.signed / 2 ^ b.unsigned.toNat)
  | equ, [a, b] => some (decide (a.unsigned = b.unsigned)).toInt
  | neq, [a, b] => some (decide (a.unsigned ≠ b.unsigned)).toInt
  | ult, [a, b] => some (decide (a.unsigned < b.unsigned)).toInt
  | ule, [a, b] => some (decide (a.unsigned ≤ b.unsigned)).toInt
  | slt, [a, b] => some (decide (a.signed < b.signed)).toInt
  | sle, [a, b] => some (decide (a.signed ≤ b.signed)).toInt
  | _, _ => none

variable {op : BuiltIn} {a b : Constant} {args : List Constant} {type : ValueType}

theorem flag_eq (p : Bool) : flag p = BitVec.ofInt 128 p.toInt := by
  cases p with
  | false => rfl
  | true => rfl

/-- From 128 places on a shift to the left has nothing left to shift. -/
theorem shiftLeft_eq (word : Word) (places : Nat) : shiftLeft word places = word <<< places := by
  unfold shiftLeft
  split
  · rfl
  · rw [BitVec.shiftLeft_eq_zero (by omega)]
    rfl

theorem shiftRightSigned_eq (word : Word) (places : Nat) :
    shiftRightSigned word places = word.sshiftRight places := by
  unfold shiftRightSigned
  split
  · rfl
  · rw [sshiftRight_of_le word (by omega)]
    rfl

theorem shiftRight_eq {word : Word} (h : word.msb = false) (places : Nat) :
    shiftRight word places = word.sshiftRight places := by
  unfold shiftRight
  split
  · rfl
  · rw [sshiftRight_of_le word (by omega), h]
    rfl

/-- An operation with one argument yields the word of the exact number. -/
theorem evalUnary_eq (op : BuiltIn) (a : Constant) :
    op.evalUnary a = (op.number? [a]).map (BitVec.ofInt 128) := by
  have hword : BitVec.ofInt 128 a.value = a.word := BitVec.ofInt_toInt
  cases op with
  | not => simp [evalUnary, ofInt_lnot, hword]
  | neg => simp [evalUnary, BitVec.ofInt_neg, hword]
  | _ => rfl

/-- **An operation with two arguments yields the word of the exact number.** -/
theorem evalBinary_eq (op : BuiltIn) (ha : a.type.width ≤ 126) (hb : b.type.width ≤ 126) :
    op.evalBinary a b = (op.number? [a, b]).map (BitVec.ofInt 128) := by
  have hworda : BitVec.ofInt 128 a.value = a.word := BitVec.ofInt_toInt
  have hwordb : BitVec.ofInt 128 b.value = b.word := BitVec.ofInt_toInt
  have hua := Constant.toInt_unsignedWord ha
  have hub := Constant.toInt_unsignedWord hb
  have hsa := Constant.toInt_signedWord ha
  have hsb := Constant.toInt_signedWord hb
  have hamount := Constant.toNat_unsignedWord hb
  have hinj : ∀ {x y : Word}, x = y ↔ x.toInt = y.toInt := fun {x y} => BitVec.toInt_inj.symm
  -- Arithmetic and bits go through `ofInt` to the words of the operands, the rest is about their
  -- readings.
  cases op with
  | add => simp [evalBinary, BitVec.ofInt_add, hworda, hwordb]
  | sub => simp [evalBinary, ofInt_sub, hworda, hwordb]
  | mul => simp [evalBinary, BitVec.ofInt_mul, hworda, hwordb]
  | and => simp [evalBinary, ofInt_land, hworda, hwordb]
  | or => simp [evalBinary, ofInt_lor, hworda, hwordb]
  | xor => simp [evalBinary, ofInt_xor, hworda, hwordb]
  | lsl => simp [evalBinary, shiftLeft_eq, ofInt_mul_two_pow, hworda, hamount]
  | lsr =>
    have hsign := Constant.msb_unsignedWord ha
    simp [evalBinary, shiftRight_eq hsign, ← ofInt_toInt_div, hua, hamount]
  | asr => simp [evalBinary, shiftRightSigned_eq, ← ofInt_toInt_div, hsa, hamount]
  | equ => simp [evalBinary, flag_eq, hinj, hua, hub]
  | neq => simp [evalBinary, flag_eq, hinj, hua, hub]
  | ult => simp [evalBinary, flag_eq, BitVec.slt_eq_decide, hua, hub]
  | ule => simp [evalBinary, flag_eq, BitVec.sle_eq_decide, hua, hub]
  | slt => simp [evalBinary, flag_eq, BitVec.slt_eq_decide, hsa, hsb]
  | sle => simp [evalBinary, flag_eq, BitVec.sle_eq_decide, hsa, hsb]
  | not => rfl
  | neg => rfl

/-- **An operation yields the constant of the exact number.** -/
theorem eval_eq_number (op : BuiltIn) (hargs : ∀ c ∈ args, c.type.width ≤ 126) (type : ValueType) :
    op.eval args type = (op.number? args).map (Constant.ofInt · type) := by
  match args, hargs with
  | [], _ => cases op <;> rfl
  | [a], _ =>
    rw [eval, evalUnary_eq, Option.map_map]
    rfl
  | [a, b], hargs =>
    rw [eval, evalBinary_eq op (hargs a (by simp)) (hargs b (by simp)), Option.map_map]
    rfl
  | _ :: _ :: _ :: _, _ => cases op <;> rfl

/-! ## 3. Evaluation at one width -/

/-- **An operation on bit vectors of one width**, or `none` if the number of arguments is wrong. -/
@[simp] def onBits? {w : Nat} (op : BuiltIn) (args : List (BitVec w)) : Option (BitVec w) :=
  match op, args with
  | add, [x, y] => some (x + y)
  | sub, [x, y] => some (x - y)
  | mul, [x, y] => some (x * y)
  | and, [x, y] => some (x &&& y)
  | or, [x, y] => some (x ||| y)
  | xor, [x, y] => some (x ^^^ y)
  | not, [x] => some (~~~x)
  | neg, [x] => some (-x)
  | lsl, [x, y] => some (x <<< y)
  | lsr, [x, y] => some (x >>> y)
  | asr, [x, y] => some (x.sshiftRight' y)
  | equ, [x, y] => some ((BitVec.ofBool (decide (x = y))).setWidth w)
  | neq, [x, y] => some ((BitVec.ofBool (decide (x ≠ y))).setWidth w)
  | ult, [x, y] => some ((BitVec.ofBool (x.ult y)).setWidth w)
  | ule, [x, y] => some ((BitVec.ofBool (x.ule y)).setWidth w)
  | slt, [x, y] => some ((BitVec.ofBool (x.slt y)).setWidth w)
  | sle, [x, y] => some ((BitVec.ofBool (x.sle y)).setWidth w)
  | _, _ => none

end BuiltIn

namespace Constant

variable {w : Nat} {c : Constant}

theorem ofInt_value (c : Constant) (h : w ≤ 128) : BitVec.ofInt w c.value = c.lowBits w :=
  ofInt_toInt_of_le c.word h

theorem toNat_lowBits (h : w ≤ 128) (hc : c.type.width = w) :
    ((c.lowBits w).toNat : Int) = c.unsigned := by
  rw [← ofInt_value c h, BitVec.toNat_ofInt, unsigned, hc]
  push_cast
  exact Int.toNat_of_nonneg (Int.emod_nonneg _ (by positivity))

theorem toInt_lowBits (h : w ≤ 128) (hc : c.type.width = w) : (c.lowBits w).toInt = c.signed := by
  rw [← ofInt_value c h, BitVec.toInt_ofInt, signed, hc]

/-- The bits of the constant of a number are those of the number. -/
theorem lowBits_ofInt (n : Int) (type : ValueType) (h : type.width ≤ 128) :
    (ofInt n type).lowBits type.width = BitVec.ofInt type.width n :=
  (lowBits_ofWord rfl _).trans (setWidth_ofInt n h)

end Constant

namespace BuiltIn

variable {op : BuiltIn} {a b : Constant} {args : List Constant} {type : ValueType} {w : Nat}

theorem ofInt_numberUnary (op : BuiltIn) (h : w ≤ 128) (a : Constant) :
    (op.number? [a]).map (BitVec.ofInt w) = op.onBits? [a.lowBits w] := by
  cases op with
  | not => simp [ofInt_lnot, Constant.ofInt_value a h]
  | neg => simp [BitVec.ofInt_neg, Constant.ofInt_value a h]
  | _ => rfl

theorem ofInt_numberBinary (op : BuiltIn) (h : w ≤ 128) (ha : a.type.width = w)
    (hb : b.type.width = w) :
    (op.number? [a, b]).map (BitVec.ofInt w) = op.onBits? [a.lowBits w, b.lowBits w] := by
  have hworda := Constant.ofInt_value a h
  have hwordb := Constant.ofInt_value b h
  have hua := Constant.toNat_lowBits h ha
  have hub := Constant.toNat_lowBits h hb
  have hsa := Constant.toInt_lowBits h ha
  have hsb := Constant.toInt_lowBits h hb
  have hinj : ∀ {x y : BitVec w}, x = y ↔ (x.toNat : Int) = y.toNat := by
    intro x y
    rw [Int.natCast_inj, BitVec.toNat_inj]
  cases op with
  | add => simp [BitVec.ofInt_add, hworda, hwordb]
  | sub => simp [ofInt_sub, hworda, hwordb]
  | mul => simp [BitVec.ofInt_mul, hworda, hwordb]
  | and => simp [ofInt_land, hworda, hwordb]
  | or => simp [ofInt_lor, hworda, hwordb]
  | xor => simp [ofInt_xor, hworda, hwordb]
  | lsl => simp [ofInt_mul_two_pow, hworda, ← hub]
  | lsr => simp [← hua, ← hub, ofInt_toNat_div]
  | asr => simp [← hsa, ← hub, ofInt_toInt_div]
  | equ => simp [ofInt_toInt_bool, hinj, hua, hub]
  | neq => simp [ofInt_toInt_bool, hinj, hua, hub]
  | ult => simp [ofInt_toInt_bool, BitVec.ult_eq_decide, ← hua, ← hub]
  | ule => simp [ofInt_toInt_bool, BitVec.ule_eq_decide, ← hua, ← hub]
  | slt => simp [ofInt_toInt_bool, BitVec.slt_eq_decide, ← hsa, ← hsb]
  | sle => simp [ofInt_toInt_bool, BitVec.sle_eq_decide, ← hsa, ← hsb]
  | not => rfl
  | neg => rfl

/-- **At one width the exact number has the bits that the operation makes of the bits.** -/
theorem ofInt_number (op : BuiltIn) (h : w ≤ 128) (hargs : ∀ c ∈ args, c.type.width = w) :
    (op.number? args).map (BitVec.ofInt w) = op.onBits? (args.map (·.lowBits w)) := by
  match args, hargs with
  | [], _ => cases op <;> rfl
  | [a], _ => exact ofInt_numberUnary op h a
  | [a, b], hargs => exact ofInt_numberBinary op h (hargs a (by simp)) (hargs b (by simp))
  | _ :: _ :: _ :: _, _ => cases op <;> rfl

end BuiltIn

/-! ## 4. Evaluation that may overflow -/

namespace Constant

/-- The bits of a constant without a sign, in signed arithmetic. -/
def unsigned? (c : Constant) : Option Word := Word.truncate? c.word c.type.width

/-- The bits of a constant with a sign, in signed arithmetic. -/
def signed? (c : Constant) : Option Word := (ValueType.sint c.type.width).normalize? c.word

theorem unsigned?_eq (c : Constant) : c.unsigned? = some c.unsignedWord := Word.truncate?_eq _ _

theorem signed?_eq (c : Constant) : c.signed? = some c.signedWord := ValueType.normalize?_eq _ _

end Constant

namespace BuiltIn

variable {op : BuiltIn} {args : List Constant} {type : ValueType} {w : Nat}

/-- The number of places a word asks for, or what 32 bits hold at most. -/
def places (word : Word) : Nat :=
  if 0 ≤ word.toInt ∧ word.toInt < 2 ^ 32 then word.toInt.toNat else 2 ^ 32 - 1

/-- Shift left; a shift by 128 places or more is refused. -/
def shiftLeft? (word : Word) (places : Nat) : Option Word :=
  if places < 128 then some (word <<< places) else none

/-- Shift right with the sign; a shift by 128 places or more is refused. -/
def shiftRight? (word : Word) (places : Nat) : Option Word :=
  if places < 128 then some (word.sshiftRight places) else none

/-- The word of an operation with two arguments, in signed arithmetic. -/
def evalBinary? (op : BuiltIn) (a b : Constant) : Option Word := do
  let amount := places (← b.unsigned?)
  match op with
  | add => return a.word + b.word
  | sub => return a.word - b.word
  | mul => return a.word * b.word
  | and => return a.word &&& b.word
  | or => return a.word ||| b.word
  | xor => return a.word ^^^ b.word
  | lsl => return (shiftLeft? a.word amount).getD 0
  | lsr => return (shiftRight? (← a.unsigned?) amount).getD 0
  | asr =>
    let word ← a.signed?
    return (shiftRight? word amount).getD (if word.toInt < 0 then -1 else 0)
  | equ => return flag (decide ((← a.unsigned?) = (← b.unsigned?)))
  | neq => return flag (decide ((← a.unsigned?) ≠ (← b.unsigned?)))
  | ult => return flag ((← a.unsigned?).slt (← b.unsigned?))
  | ule => return flag ((← a.unsigned?).sle (← b.unsigned?))
  | slt => return flag ((← a.signed?).slt (← b.signed?))
  | sle => return flag ((← a.signed?).sle (← b.signed?))
  | not | neg => none

/-- **Evaluation in signed arithmetic**, to the word of the constant.  It is `some none` for a
wrong number of arguments, and `none` where a number does not fit, an argument is missing or the
operation is not expected. -/
def eval? (op : BuiltIn) (args : List Constant) (type : ValueType) : Option (Option Word) :=
  if args.length ≠ op.arity then some none
  else do
    let a ← args[0]?
    let word ← match op with
      | not => some (~~~a.word)
      | neg => some (-a.word)
      | op => args[1]? >>= op.evalBinary? a
    let normal ← type.normalize? word
    return some normal

/-- Up to 127 places a word asks for its number. -/
theorem places_cases (word : Word) :
    (word.toNat < 128 ∧ places word = word.toNat) ∨ (¬ word.toNat < 128 ∧ ¬ places word < 128) := by
  have hnumber := BitVec.toInt_eq_toNat_cond word
  have hlt := word.isLt
  unfold places
  split at hnumber <;> split <;> omega

theorem shiftLeft?_places (word amount : Word) :
    (shiftLeft? word (places amount)).getD 0 = shiftLeft word amount.toNat := by
  unfold shiftLeft? shiftLeft
  rcases places_cases amount with ⟨hlt, heq⟩ | ⟨hge, hge'⟩
  · rw [heq, if_pos hlt, if_pos hlt, Option.getD_some]
  · rw [if_neg hge, if_neg hge', Option.getD_none]

theorem shiftRight?_places (word amount rest : Word) :
    (shiftRight? word (places amount)).getD rest
      = if amount.toNat < 128 then word.sshiftRight amount.toNat else rest := by
  unfold shiftRight?
  rcases places_cases amount with ⟨hlt, heq⟩ | ⟨hge, hge'⟩
  · rw [heq, if_pos hlt, if_pos hlt, Option.getD_some]
  · rw [if_neg hge, if_neg hge', Option.getD_none]

/-- An operation that takes two arguments does not overflow on them. -/
theorem evalBinary?_eq (op : BuiltIn) (a b : Constant) :
    op.evalBinary? a b = op.evalBinary a b := by
  unfold evalBinary?
  simp only [Constant.unsigned?_eq, Constant.signed?_eq, Option.bind_eq_bind, Option.bind_some]
  cases op with
  | lsl => exact congrArg some (shiftLeft?_places _ _)
  | lsr => exact congrArg some (shiftRight?_places _ _ _)
  | asr =>
    refine congrArg some ((shiftRight?_places _ _ _).trans ?_)
    rw [shiftRightSigned, BitVec.msb_eq_toInt]
    simp only [decide_eq_true_eq]
  | _ => rfl

theorem eval_eq_none_iff : op.eval args type = none ↔ args.length ≠ op.arity := by
  refine ⟨fun hnone harity => ?_, Graph.eval_of_ne_arity⟩
  obtain ⟨k, hk, -⟩ := Graph.exists_eval_of_arity harity type
  rw [hnone] at hk
  exact absurd hk (by simp)

/-- **Evaluation never overflows.** -/
theorem eval?_eq (op : BuiltIn) (args : List Constant) (type : ValueType) :
    op.eval? args type = some ((op.eval args type).map (·.word)) := by
  unfold eval?
  split
  · rename_i harity
    rw [Graph.eval_of_ne_arity harity, Option.map_none]
  · rename_i harity
    have hlength : args.length = op.arity := not_not.mp harity
    cases op with
    | not =>
      obtain ⟨a, rfl⟩ := List.length_eq_one_iff.mp hlength
      simp [eval, evalUnary, ValueType.normalize?_eq, Constant.ofWord]
    | neg =>
      obtain ⟨a, rfl⟩ := List.length_eq_one_iff.mp hlength
      simp [eval, evalUnary, ValueType.normalize?_eq, Constant.ofWord]
    | _ =>
      obtain ⟨a, b, rfl⟩ := List.length_eq_two.mp hlength
      simp [eval, evalBinary?_eq, evalBinary, ValueType.normalize?_eq, Constant.ofWord]

/-! ## 5. The result -/

/-- At one width the bits of the result are what the operation makes of the bits. -/
theorem lowBits_eval (h : w ≤ 126) (hwidth : type.width = w)
    (hargs : ∀ c ∈ args, c.type.width = w) :
    (op.eval args type).map (·.lowBits w) = op.onBits? (args.map (·.lowBits w)) := by
  subst hwidth
  have hcut : ∀ c ∈ args, c.type.width ≤ 126 := fun c hc => (hargs c hc).trans_le h
  rw [eval_eq_number op hcut type, Option.map_map, ← ofInt_number op (by omega) hargs]
  refine congrArg (fun f => Option.map f (op.number? args)) (funext fun n => ?_)
  exact Constant.lowBits_ofInt n type (by omega)

/-- **Built-in operations compute exactly, modulo two to the width of the result.**

An operation fails exactly if the number of its arguments is wrong, and no step of it overflows.
On types that are cut the result is congruent to the exact number.  If all types have one width
then its bits are what the operation on bit vectors makes of the bits of the arguments, so they do
not depend on which types have a sign. -/
theorem evaluates_exactly (op : BuiltIn) (args : List Constant) (type : ValueType) :
    (op.eval args type = none ↔ args.length ≠ op.arity) ∧
    op.eval? args type = some ((op.eval args type).map (·.word)) ∧
    (type.width ≤ 126 → (∀ c ∈ args, c.type.width ≤ 126) → args.length = op.arity →
      ∃ result n, op.eval args type = some result ∧ result.type = type ∧
        op.number? args = some n ∧ result.value ≡ n [ZMOD 2 ^ type.width]) ∧
    (∀ w ≤ 126, type.width = w → (∀ c ∈ args, c.type.width = w) →
      (op.eval args type).map (·.lowBits w) = op.onBits? (args.map (·.lowBits w)) ∧
      ∀ args' type', type'.width = w → (∀ c ∈ args', c.type.width = w) →
        args'.map (·.lowBits w) = args.map (·.lowBits w) →
          (op.eval args' type').map (·.lowBits w) = (op.eval args type).map (·.lowBits w)) := by
  refine ⟨eval_eq_none_iff, eval?_eq op args type, fun hwidth hcut harity => ?_,
    fun w h hwidth hargs =>
    ⟨lowBits_eval h hwidth hargs, fun args' type' hwidth' hargs' hbits => ?_⟩⟩
  · obtain ⟨result, hresult, htype⟩ := Graph.exists_eval_of_arity harity type
    have hexact := eval_eq_number op hcut type
    rw [hresult] at hexact
    obtain ⟨n, hn, rfl⟩ := Option.map_eq_some_iff.mp hexact.symm
    exact ⟨_, n, hresult, htype, hn, Constant.value_ofInt_modEq (by omega) n⟩
  · rw [lowBits_eval h hwidth' hargs', hbits, lowBits_eval h hwidth hargs]

/-- Of 8 bits, -128 shifted right with its sign is -64, and 128 without a sign has the same bits
before and after; a shift to the left may be by more places than any word has, and one argument is
not enough. -/
theorem evaluates_exactly_asr :
    (asr.eval [.ofInt (-128) (.sint 8), .ofInt 1 (.uint 8)] (.sint 8)).map (·.lowBits 8)
      = some 0xC0#8 ∧
    (asr.eval [.ofInt 128 (.uint 8), .ofInt 1 (.sint 8)] (.bits 8)).map (·.lowBits 8)
      = some 0xC0#8 ∧
    (∃ result n, lsl.eval [.ofInt 1 (.sint 8), .ofInt (-1) (.sint 64)] (.uint 8) = some result ∧
      result.type = .uint 8 ∧
      lsl.number? [.ofInt 1 (.sint 8), .ofInt (-1) (.sint 64)] = some n ∧
      result.value ≡ n [ZMOD 2 ^ 8]) ∧
    asr.eval [.ofInt 128 (.uint 8)] (.bits 8) = none := by
  obtain ⟨-, -, -, hbits⟩ :=
    evaluates_exactly asr [.ofInt (-128) (.sint 8), .ofInt 1 (.uint 8)] (.sint 8)
  obtain ⟨heval, hsame⟩ := hbits 8 (by decide) rfl (by decide)
  have hfirst : (asr.eval [.ofInt (-128) (.sint 8), .ofInt 1 (.uint 8)] (.sint 8)).map (·.lowBits 8)
      = some 0xC0#8 := heval.trans (by decide)
  refine ⟨hfirst, ?_, ?_, ?_⟩
  · exact (hsame [.ofInt 128 (.uint 8), .ofInt 1 (.sint 8)] (.bits 8) rfl (by decide)
      (by decide)).trans hfirst
  · exact (evaluates_exactly lsl _ (.uint 8)).2.2.1 (by decide) (by decide) rfl
  · exact (evaluates_exactly asr _ _).1.mpr (by decide)

end BuiltIn

end BehaviorGraph
