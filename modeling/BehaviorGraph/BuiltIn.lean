/-
# Built-in operations

The operations behaviour descriptions are made of, and their evaluation on constants.

Arithmetic and bitwise operations work on the whole word of a constant; shifts and comparisons read
only the bits of the operand's own type, without or with its sign.  The result is normalized at the
type the operation is asked for, so what counts in the end is the word modulo two to that width.
-/
import BehaviorGraph.Constant

namespace BehaviorGraph

/-- A built-in operation. -/
inductive BuiltIn where
  | add
  | sub
  | mul
  | and
  | or
  | xor
  | not
  | neg
  /-- Shift left. -/
  | lsl
  /-- Shift right, filling with zeros. -/
  | lsr
  /-- Shift right, filling with the sign. -/
  | asr
  | equ
  | neq
  | ult
  | ule
  | slt
  | sle
deriving DecidableEq

namespace BuiltIn

/-- Every operation. -/
def all : List BuiltIn :=
  [add, sub, mul, and, or, xor, not, neg, lsl, lsr, asr, equ, neq, ult, ule, slt, sle]

def name : BuiltIn → String
  | add => "add"
  | sub => "sub"
  | mul => "mul"
  | and => "and"
  | or => "or"
  | xor => "xor"
  | not => "not"
  | neg => "neg"
  | lsl => "lsl"
  | lsr => "lsr"
  | asr => "asr"
  | equ => "equ"
  | neq => "neq"
  | ult => "ult"
  | ule => "ule"
  | slt => "slt"
  | sle => "sle"

/-- The operation of a name. -/
def ofName? (name : String) : Option BuiltIn := all.find? fun op => decide (op.name = name)

/-- The number of arguments. -/
def arity : BuiltIn → Nat
  | not | neg => 1
  | _ => 2

/-- Whether the result is a truth value (`is_comparison`). -/
def isComparison : BuiltIn → Bool
  | equ | neq | ult | ule | slt | sle => true
  | _ => false

/-! ## 1. On words -/

/-- A truth value as a word. -/
def flag (b : Bool) : Word := if b then 1 else 0

/-- Shift left; everything is shifted out from 128 places on. -/
def shiftLeft (word : Word) (places : Nat) : Word := if places < 128 then word <<< places else 0

/-- Shift right, copying the sign bit of the word; zero from 128 places on. -/
def shiftRight (word : Word) (places : Nat) : Word :=
  if places < 128 then word.sshiftRight places else 0

/-- Shift right, copying the sign bit of the word for any number of places. -/
def shiftRightSigned (word : Word) (places : Nat) : Word :=
  if places < 128 then word.sshiftRight places else if word.msb then -1 else 0

/-- The word of an operation with one argument; the others have none. -/
def evalUnary (op : BuiltIn) (a : Constant) : Option Word :=
  match op with
  | not => some (~~~a.word)
  | neg => some (-a.word)
  | _ => none

/-- The word of an operation with two arguments; the others have none. -/
def evalBinary (op : BuiltIn) (a b : Constant) : Option Word :=
  match op with
  | add => some (a.word + b.word)
  | sub => some (a.word - b.word)
  | mul => some (a.word * b.word)
  | and => some (a.word &&& b.word)
  | or => some (a.word ||| b.word)
  | xor => some (a.word ^^^ b.word)
  | lsl => some (shiftLeft a.word b.unsignedWord.toNat)
  | lsr => some (shiftRight a.unsignedWord b.unsignedWord.toNat)
  | asr => some (shiftRightSigned a.signedWord b.unsignedWord.toNat)
  | equ => some (flag (decide (a.unsignedWord = b.unsignedWord)))
  | neq => some (flag (decide (a.unsignedWord ≠ b.unsignedWord)))
  | ult => some (flag (a.unsignedWord.slt b.unsignedWord))
  | ule => some (flag (a.unsignedWord.sle b.unsignedWord))
  | slt => some (flag (a.signedWord.slt b.signedWord))
  | sle => some (flag (a.signedWord.sle b.signedWord))
  | not | neg => none

/-! ## 2. On constants -/

/-- **The constant an operation yields at `type`**, or `none` if the number of arguments is wrong
(`eval`). -/
def eval (op : BuiltIn) (args : List Constant) (type : ValueType) : Option Constant :=
  match args with
  | [a] => (op.evalUnary a).map (Constant.ofWord · type)
  | [a, b] => (op.evalBinary a b).map (Constant.ofWord · type)
  | _ => none

end BuiltIn

end BehaviorGraph
