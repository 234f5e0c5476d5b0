/-
# Errors, batches of errors and diagnostics

An error is a cause, optionally a span of the source and optionally a note.  Its wording is made in
one place, `Cause.message`, and its rendering adds the span and the note.

Errors that are found together travel as a list, a batch.  A batch of one is that error; any other
batch becomes a single error only by joining the renderings, so that step can fail where a rendering
does (`Span.format?`).

A batch is a `MultiError`, and the problems of a check are a `DiagnosticContext`.
-/
import BehaviorGraph.Source

namespace BehaviorGraph

/-! ## 1. One error -/

/-- Why something was refused. -/
inductive Cause where
  /-- The dataflow of a behaviour is malformed. -/
  | malformedStructure (message : String)
  /-- The control flow of a behaviour is malformed. -/
  | malformedControl (message : String)
  /-- A name of the given sort is not bound. -/
  | undefinedName (name sort : String)
  /-- A name is already bound by something else. -/
  | alreadyBound (name binder : String)
  /-- What a pass relies on does not hold. -/
  | passAssumption (pass message : String)
  /-- Valid, but not handled. -/
  | unsupported (message : String)
  /-- An invariant of the compiler itself is broken. -/
  | internal (message : String)
  /-- Anything else. -/
  | other (message : String)
deriving DecidableEq

/-- The wording of a cause. -/
def Cause.message : Cause → String
  | .malformedStructure message => "Malformed Structure: " ++ message
  | .malformedControl message => "Malformed Control: " ++ message
  | .undefinedName name sort => "Undefined " ++ sort ++ " name: " ++ name
  | .alreadyBound name binder => "Name `" ++ name ++ "' already bound by " ++ binder
  | .passAssumption pass message => "Pass `" ++ pass ++ "` assumption violated: " ++ message
  | .unsupported message => "Unsupported: " ++ message
  | .internal message => "Internal compiler error: " ++ message
  | .other message => message

/-- A cause with the place it concerns and a note printed below. -/
structure Error where
  cause : Cause
  position : Option Span := none
  note : Option String := none
deriving DecidableEq

namespace Error

def malformedStructure (message : String) : Error := { cause := .malformedStructure message }

def malformedControl (message : String) : Error := { cause := .malformedControl message }

def undefinedName (name sort : String) : Error := { cause := .undefinedName name sort }

def passAssumption (pass message : String) : Error := { cause := .passAssumption pass message }

def internal (message : String) : Error := { cause := .internal message }

def other (message : String) : Error := { cause := .other message }

/-- The error at a position; `none` takes the position away (`with_pos`). -/
def locatedAt (error : Error) (position : Option Span) : Error :=
  { error with position := position }

/-- The error with a note below (`with_post_msg`). -/
def withNote (error : Error) (note : String) : Error := { error with note := some note }

/-- The wording without position and note. -/
def message (error : Error) : String := error.cause.message

/-- Whether the compiler itself is to blame. -/
def isInternal (error : Error) : Bool :=
  match error.cause with
  | .internal _ => true
  | _ => false

/-- The message, shown at the position if there is one, and the note on lines of its own. -/
def render? (error : Error) : Option String := do
  let body ←
    match error.position with
    | none => some error.message
    | some span => span.format? error.message
  match error.note with
  | none => return body
  | some note => return body ++ "\n" ++ note

end Error

/-! ## 2. Batches -/

/-- Errors reported together (`MultiError`). -/
abbrev Batch := List Error

/-- The renderings of a batch, one after the other, or `none` if one of them is missing. -/
def Batch.renderAll? (batch : Batch) : Option (List String) := batch.mapM Error.render?

/-- The renderings joined by line ends. -/
def Batch.render? (batch : Batch) : Option String := do
  let texts ← batch.renderAll?
  return String.intercalate "\n" texts

/-- **A batch of one is its error**; any other is one error that lists the renderings. -/
def Batch.toError? : Batch → Option Error
  | [error] => some error
  | batch => do
    let text ← batch.render?
    return Error.other text

/-! ## 3. Diagnostics -/

/-- How bad a reported problem is. -/
inductive Severity where
  | warning
  | error
deriving DecidableEq

/-- The problems a check found, in the order it found them (`DiagnosticContext`). -/
structure Diagnostics where
  errors : List Error := []
  warnings : List Error := []
deriving DecidableEq

namespace Diagnostics

/-- Nothing to report. -/
def empty : Diagnostics := {}

/-- Only errors. -/
def ofErrors (errors : List Error) : Diagnostics := { errors := errors }

/-- Record a problem behind those of its severity. -/
def report (diagnostics : Diagnostics) (severity : Severity) (problem : Error) : Diagnostics :=
  match severity with
  | .error => { diagnostics with errors := diagnostics.errors ++ [problem] }
  | .warning => { diagnostics with warnings := diagnostics.warnings ++ [problem] }

/-- The problems of both, the first ones first. -/
def append (first second : Diagnostics) : Diagnostics :=
  ⟨first.errors ++ second.errors, first.warnings ++ second.warnings⟩

instance : Append Diagnostics := ⟨append⟩

/-- Every problem with its severity, errors first. -/
def all (diagnostics : Diagnostics) : List (Severity × Error) :=
  diagnostics.errors.map (Severity.error, ·) ++ diagnostics.warnings.map (Severity.warning, ·)

def hasErrors (diagnostics : Diagnostics) : Bool := !diagnostics.errors.isEmpty

def isEmpty (diagnostics : Diagnostics) : Bool :=
  diagnostics.errors.isEmpty && diagnostics.warnings.isEmpty

/-- Fail with the errors as a batch, if there are any; warnings are dropped (`into_result`). -/
def toExcept (diagnostics : Diagnostics) : Except Batch Unit :=
  if diagnostics.errors.isEmpty then .ok () else .error diagnostics.errors

/-- The value of a result; a failed one is recorded as an error and counts as `fallback`
(`accumulate_err`). -/
def accumulate {α : Type} (diagnostics : Diagnostics) (fallback : α) :
    Except Error α → α × Diagnostics
  | .ok value => (value, diagnostics)
  | .error problem => (fallback, diagnostics.report .error problem)

end Diagnostics

end BehaviorGraph
