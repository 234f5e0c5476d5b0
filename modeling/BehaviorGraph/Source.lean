/-
# Source files and spans

A span is a pair of byte offsets into the text of a source file.  Lines are what newline characters
separate, and a line owns the offsets from its first byte up to the newline that ends it, both
included, so every offset up to the length of the text lies on exactly one line.

The excerpt of a span is the run of lines from the one that holds its start to the one that holds
its end.  It is empty when there is no such run: the start lies beyond the text, or on a later line
than the end.  Lengths and offsets are counted in bytes throughout.

A span is what a `GPosIdx` stands for in the table of positions; its excerpt is made by `get_lines`
and its rendering by `format`.
-/
namespace BehaviorGraph

/-! ## 1. Lines -/

/-- A named source text. -/
structure SourceFile where
  name : String
  text : String
deriving DecidableEq

/-- The pieces between newline characters; there is always at least one. -/
def splitLines : List Char → List (List Char)
  | [] => [[]]
  | c :: rest =>
    if c = '\n' then [] :: splitLines rest
    else
      match splitLines rest with
      | [] => [[c]]
      | line :: lines => (c :: line) :: lines

/-- One line of a source text. -/
structure Line where
  /-- The number of the line, counted from one. -/
  number : Nat
  /-- The offset of its first byte. -/
  start : Nat
  /-- Its characters, without the newline. -/
  text : String
deriving DecidableEq

/-- The offset just behind the last byte of the line, where its newline stands. -/
def Line.stop (line : Line) : Nat := line.start + line.text.utf8ByteSize

/-- Whether a byte offset lies on the line. -/
def Line.holds (line : Line) (offset : Nat) : Bool :=
  decide (line.start ≤ offset) && decide (offset ≤ line.stop)

/-- Number the pieces of a text and give each its offset. -/
def placeLines (number start : Nat) : List (List Char) → List Line
  | [] => []
  | piece :: rest =>
    let line : Line := ⟨number, start, String.ofList piece⟩
    line :: placeLines (number + 1) (line.stop + 1) rest

/-- The lines of a source file. -/
def SourceFile.lines (file : SourceFile) : List Line :=
  placeLines 1 0 (splitLines file.text.toList)

/-! ## 2. Spans -/

/-- A range of bytes of a source file.  Nothing forces the end behind the start. -/
structure Span where
  file : SourceFile
  start : Nat
  stop : Nat
deriving DecidableEq

/-- The span that stands for a position nobody knows: the empty span of an empty file. -/
def Span.unknown : Span := ⟨⟨"unknown", ""⟩, 0, 0⟩

/-- The lines up to the first one that reaches `offset`, that line included. -/
def linesThrough (offset : Nat) : List Line → List Line
  | [] => []
  | line :: rest => if offset ≤ line.stop then [line] else line :: linesThrough offset rest

/-- **The lines of the span**, from the one that holds its start to the one that holds its end
(`get_lines`). -/
def Span.excerpt (span : Span) : List Line :=
  (linesThrough span.stop span.file.lines).dropWhile fun line => !line.holds span.start

/-- The number of the line the span starts on, or zero if its excerpt is empty (`line`). -/
def Span.line (span : Span) : Nat :=
  match span.excerpt with
  | [] => 0
  | line :: _ => line.number

/-! ## 3. Showing a message at a span -/

/-- The smaller of the span's length and of what is left of the line behind the span's start. -/
def Span.markerLength (span : Span) (line : Line) : Nat :=
  let length := span.stop - span.start
  let room := line.text.utf8ByteSize - (span.start - line.start)
  if length ≤ room then length else room

/-- The message under the first line of the span, with a marker below the span; only the file name
and the message if the span has no lines (`format`).  **There is no rendering exactly when the span
has lines and ends before it starts**: the marker would have a negative length. -/
def Span.format? (span : Span) (message : String) : Option String :=
  match span.excerpt with
  | [] => some (span.file.name ++ ": " ++ message)
  | line :: _ =>
    if span.stop < span.start then none
    else
      let number := toString line.number ++ " "
      let margin := String.ofList (List.replicate number.length ' ')
      let indent := String.ofList (List.replicate (span.start - line.start) ' ')
      let marker := String.ofList (List.replicate (span.markerLength line) '^')
      some (span.file.name ++ "\n" ++ number ++ "|" ++ line.text ++ "\n"
        ++ margin ++ "|" ++ indent ++ marker ++ " " ++ message)

end BehaviorGraph
