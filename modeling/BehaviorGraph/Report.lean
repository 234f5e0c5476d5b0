/-
# What a run reports on the side

Nothing in this library prints.  An operation hands back, beside its result, the list of its
reports: log entries with their severity, and text meant for the reader of the standard output.
Who runs the operation decides what becomes of them.

The text of an entry is optional.  Some texts quote a source position, and a position whose end
lies before its start has no rendering (`Span.format?`); such an entry keeps its place and its
severity, and it is a failure only for someone who wants to read it.
-/
namespace BehaviorGraph

/-! ## 1. Severities -/

/-- The severity of a log entry, most severe first. -/
inductive Level where
  | error
  | warn
  | info
  | debug
  | trace
deriving DecidableEq

/-- The name of a severity as it stands in front of a log line. -/
def Level.name : Level → String
  | .error => "ERROR"
  | .warn => "WARN"
  | .info => "INFO"
  | .debug => "DEBUG"
  | .trace => "TRACE"

/-- The place of a severity in the list, counted from one: a smaller rank is more severe. -/
def Level.rank : Level → Nat
  | .error => 1
  | .warn => 2
  | .info => 3
  | .debug => 4
  | .trace => 5

/-- A threshold lets through the entries at least as severe as its level; `none` lets nothing
through. -/
abbrev Threshold := Option Level

/-- Whether entries of severity `level` pass. -/
def Threshold.admits (threshold : Threshold) (level : Level) : Bool :=
  match threshold with
  | none => false
  | some limit => level.rank ≤ limit.rank

/-- The name of a threshold, in capitals. -/
def Threshold.name : Threshold → String
  | none => "OFF"
  | some level => level.name

/-- The threshold of a lower-case name. -/
def Threshold.ofName? : String → Option Threshold
  | "off" => some none
  | "error" => some (some .error)
  | "warn" => some (some .warn)
  | "info" => some (some .info)
  | "debug" => some (some .debug)
  | "trace" => some (some .trace)
  | _ => none

/-! ## 2. Reports -/

/-- Something said during a run. -/
inductive Report where
  /-- A log entry.  Its text is missing when it has no rendering. -/
  | entry (level : Level) (text : Option String)
  /-- Text for the standard output, line ends included. -/
  | printed (text : String)
deriving DecidableEq

/-- A text without the duration at its end.  How long something took differs from one run to the
next, so **a number of milliseconds behind a colon is shown as a word**. -/
def withoutDuration (text : String) : String :=
  match text.toList.reverse with
  | 's' :: 'm' :: rest =>
    let digits := rest.takeWhile Char.isDigit
    match digits, rest.drop digits.length with
    | _ :: _, ' ' :: ':' :: head => String.ofList head.reverse ++ ": <time>"
    | _, _ => text
  | _ => text

/-- The line of an entry.  Durations stand in remarks and warnings only. -/
def Level.line (level : Level) (text : String) : String :=
  match level with
  | .warn | .info => level.name ++ " " ++ withoutDuration text
  | _ => level.name ++ " " ++ text

/-- The log lines that pass `threshold`, in order, or `none` if **a line that passes has no
rendering**. -/
def Report.logLines (threshold : Threshold) : List Report → Option (List String)
  | [] => some []
  | .printed _ :: rest => logLines threshold rest
  | .entry level text :: rest =>
    if threshold.admits level then do
      let text ← text
      let lines ← logLines threshold rest
      return level.line text :: lines
    else logLines threshold rest

/-- Everything printed, in order. -/
def Report.printedText : List Report → String
  | [] => ""
  | .printed text :: rest => text ++ printedText rest
  | .entry _ _ :: rest => printedText rest

end BehaviorGraph
