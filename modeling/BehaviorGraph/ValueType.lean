/-
# Types of values

A value is a word of a certain width, and its type says how the word is read: as a truth value, as
an unsigned or signed number, or as plain bits.  Two types of one width hold the same words, so a
cast between them changes nothing but the reading.
-/
namespace BehaviorGraph

/-- The type of a value (`Type`). -/
inductive ValueType where
  | bool
  | uint (width : Nat)
  | sint (width : Nat)
  | bits (width : Nat)
deriving DecidableEq

namespace ValueType

/-- The number of bits of a value; a truth value has one. -/
def width : ValueType → Nat
  | bool => 1
  | uint w | sint w | bits w => w

/-- Whether the top bit counts as a sign. -/
def isSigned : ValueType → Bool
  | sint _ => true
  | _ => false

/-- Whether a cast to `other` only reads the same bits differently. -/
def isTrivialCastTo (type other : ValueType) : Bool := decide (type.width = other.width)

/-- The type of the same reading at another width.  A truth value of any width but one is plain
bits. -/
def withWidth (type : ValueType) (width : Nat) : ValueType :=
  match type with
  | bool => if width = 1 then bool else bits width
  | bits _ => bits width
  | uint _ => uint width
  | sint _ => sint width

/-- The name of the type, the width in angle brackets. -/
def text : ValueType → String
  | bool => "Bool"
  | uint w => "UInt<" ++ toString w ++ ">"
  | sint w => "SInt<" ++ toString w ++ ">"
  | bits w => "Bits<" ++ toString w ++ ">"

end ValueType

end BehaviorGraph
