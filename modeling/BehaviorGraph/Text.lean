/-
# Small readings of text

Splitting at a separator, reading signed numbers of 64 bits, and quoting.  All of them work on the
characters of the text.
-/
import BehaviorGraph.Text.Combining
import BehaviorGraph.Text.Invisible

namespace BehaviorGraph

/-! ## 1. Splitting -/

/-- What stands before and behind the first separator, if there is one. -/
def splitOnce (separator : Char) (text : String) : Option (String × String) :=
  let before := text.toList.takeWhile fun c => !decide (c = separator)
  match text.toList.drop before.length with
  | [] => none
  | _ :: behind => some (String.ofList before, String.ofList behind)

/-- The pieces between separators; there is always at least one. -/
def splitPieces (separator : Char) : List Char → List (List Char)
  | [] => [[]]
  | c :: rest =>
    if c = separator then [] :: splitPieces separator rest
    else
      match splitPieces separator rest with
      | [] => [[c]]
      | piece :: pieces => (c :: piece) :: pieces

/-- The texts between separators. -/
def splitAll (separator : Char) (text : String) : List String :=
  (splitPieces separator text.toList).map String.ofList

/-! ## 2. Numbers -/

/-- The value of a non-empty run of decimal digits. -/
def readDigits? (digits : List Char) : Option Nat :=
  if digits.isEmpty || !digits.all Char.isDigit then none
  else some (digits.foldl (fun value c => 10 * value + (c.toNat - '0'.toNat)) 0)

/-- The first number that does not fit into 64 bits with a sign. -/
def int64Limit : Nat := 0x8000000000000000

/-- **A decimal number with an optional sign, if it fits into 64 bits.**  Nothing else may stand in
the text. -/
def readInt64? (text : String) : Option Int :=
  match text.toList with
  | '-' :: digits => do
    let value ← readDigits? digits
    if value ≤ int64Limit then some (-(value : Int)) else none
  | '+' :: digits => do
    let value ← readDigits? digits
    if value < int64Limit then some (value : Int) else none
  | digits => do
    let value ← readDigits? digits
    if value < int64Limit then some (value : Int) else none

/-! ## 3. Quoting -/

/-- The characters of a number in hexadecimal, without leading zeros. -/
def hexadecimal (value : Nat) : List Char := Nat.toDigits 16 value

/-- A character given by its number. -/
def numbered (c : Char) : List Char := ['\\', 'u', '\x7b'] ++ hexadecimal c.toNat ++ ['\x7d']

/-- A character inside quotes.  Quotes, backslashes and the usual control characters have short
escapes, and **whatever could not be seen by itself is given by its number**. -/
def quoteChar (c : Char) : List Char :=
  if c = '"' then ['\\', '"']
  else if c = '\\' then ['\\', '\\']
  else if c = '\t' then ['\\', 't']
  else if c = '\n' then ['\\', 'n']
  else if c = '\r' then ['\\', 'r']
  else if c.toNat = 0 then ['\\', '0']
  else if combining.contains c || invisible.contains c then numbered c
  else [c]

/-- A text in double quotes. -/
def quoted (text : String) : String :=
  String.ofList ('"' :: text.toList.flatMap quoteChar ++ ['"'])

/-! ## 4. Order -/

/-- Texts in the order of their characters, which is also that of their bytes. -/
def sortTexts (texts : List String) : List String :=
  texts.mergeSort fun a b => !decide (b < a)

end BehaviorGraph
