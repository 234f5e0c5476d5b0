/-
# Constants

A constant is a word together with its type.  Every constant is held in 128 bits, whatever the width
of its type, and the word is normalized to the width: unsigned readings are padded with zeros and
signed ones with copies of the sign bit.  That the word is normal is part of the constant
(`Constant.normal`), so a type and a bit pattern have one constant.

The exception is at the top: from 127 bits on a word is taken as it is.  Types of that width and
above therefore distinguish words that agree on the type's own bits.
-/
import BehaviorGraph.ValueType

namespace BehaviorGraph

/-! ## 1. Words -/

/-- The word every constant is held in. -/
abbrev Word := BitVec 128

/-- The width from which on words are no longer cut: one bit less than a word has. -/
def wholeWidth : Nat := 127

/-- **The low `width` bits of a word**, padded with zeros; the word itself from `wholeWidth` on
(`truncate`). -/
def Word.truncate (word : Word) (width : Nat) : Word :=
  if wholeWidth ≤ width then word else (BitVec.setWidth width word).setWidth 128

/-- The low `width` bits of a word, padded with copies of the highest of them. -/
def Word.extend (word : Word) (width : Nat) : Word :=
  if wholeWidth ≤ width then word else (BitVec.setWidth width word).signExtend 128

/-- The word as a type of values holds it (`normalize`). -/
def ValueType.normalize (type : ValueType) (word : Word) : Word :=
  if type.isSigned then Word.extend word type.width else Word.truncate word type.width

/-- Cutting a sign-padded word gives back what was padded. -/
theorem Word.setWidth_signExtend {width : Nat} (x : BitVec width) (h : width ≤ 128) :
    BitVec.setWidth width (x.signExtend 128) = x := by
  ext i hi
  have hlt : i < 128 := by omega
  simp [hi, hlt, BitVec.getElem_signExtend]

/-- Normalizing twice is normalizing once. -/
theorem ValueType.normalize_normalize (type : ValueType) (word : Word) :
    type.normalize (type.normalize word) = type.normalize word := by
  by_cases hw : wholeWidth ≤ type.width
  · simp [normalize, Word.extend, Word.truncate, hw]
  · have h128 : type.width ≤ 128 := by unfold wholeWidth at hw; omega
    by_cases hs : type.isSigned = true
    · simp [normalize, Word.extend, hs, hw, Word.setWidth_signExtend, h128]
    · simp [normalize, Word.truncate, hs, hw, h128]

/-! ## 2. Constants -/

/-- A normalized word and its type. -/
structure Constant where
  word : Word
  type : ValueType
  normal : type.normalize word = word
deriving DecidableEq

namespace Constant

/-- The constant that holds the bits of `word` at `type`. -/
def ofWord (word : Word) (type : ValueType) : Constant :=
  ⟨type.normalize word, type, type.normalize_normalize word⟩

/-- The constant that holds a number, taken modulo the size of a word, at `type` (`new`). -/
def ofInt (value : Int) (type : ValueType) : Constant := ofWord (BitVec.ofInt 128 value) type

/-- A truth value (`bool`). -/
def ofBool (b : Bool) : Constant := ofInt (if b then 1 else 0) .bool

/-- The number a constant stands for: its word in two's complement. -/
def value (c : Constant) : Int := c.word.toInt

def isZero (c : Constant) : Bool := decide (c.word = 0)

/-- The same word read at another type (`cast_to`). -/
def castTo (c : Constant) (type : ValueType) : Constant := ofWord c.word type

/-- The bits of a constant, padded with zeros. -/
def unsignedWord (c : Constant) : Word := Word.truncate c.word c.type.width

/-- The bits of a constant, padded with copies of the highest. -/
def signedWord (c : Constant) : Word := Word.extend c.word c.type.width

/-- The first number that does not fit into the 32 bits a width is held in. -/
def widthLimit : Nat := 0x100000000

/-- The number of bits from `high` down to `low`, which is one if they are out of order.  It has to
fit into the bits a width is held in. -/
def sliceWidth? (high low : Nat) : Option Nat :=
  let count := high - low + 1
  if count < widthLimit then some count else none

/-- Bits `high` down to `low` of a constant at a type of its own (`slice`).  **There is no such
constant exactly when the number of bits does not fit** (`sliceWidth?`). -/
def slice? (c : Constant) (high low : Nat) (type : ValueType) : Option Constant := do
  let count ← sliceWidth? high low
  let shifted := if 128 ≤ low then 0 else c.word.sshiftRight low
  return ofWord (Word.truncate shifted count) type

/-- A truth value by its name, any other constant as value and type. -/
def text (c : Constant) : String :=
  match c.type with
  | .bool => if c.isZero then "false" else "true"
  | type => toString c.value ++ ": " ++ type.text

end Constant

end BehaviorGraph
