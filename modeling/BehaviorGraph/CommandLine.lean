/-
# The command line

Arguments are read from left to right.  Options with a value take the next argument, whatever it
is; switches may be repeated.  A request for help is answered once all arguments have been read, so
a bad argument behind it wins.  There are no positional arguments.
-/
import BehaviorGraph.Error
import BehaviorGraph.Report

namespace BehaviorGraph

/-! ## 1. Arguments -/

/-- What was asked for on the command line (`Opts`). -/
structure Arguments where
  /-- Passes and aliases to run; all of them if none is named. -/
  passes : List String := []
  disabled : List String := []
  insertions : List String := []
  options : List String := []
  dump : Bool := false
  listPasses : Bool := false
  threshold : Option Threshold := none

namespace Arguments

/-- The passes to run. -/
def selected (arguments : Arguments) : List String :=
  if arguments.passes.isEmpty then ["all"] else arguments.passes

/-- What to log: warnings and errors unless something else was asked for. -/
def logThreshold (arguments : Arguments) : Threshold := arguments.threshold.getD (some .warn)

end Arguments

/-- An option or switch. -/
inductive Flag where
  | pass
  | disable
  | insert
  | option
  | dump
  | listPasses
  | log

/-- The option of a name. -/
def Flag.ofName? : String → Option Flag
  | "-p" | "--pass" => some pass
  | "-d" | "--disable-pass" => some disable
  | "-i" | "--insert" => some insert
  | "-x" | "--extra-opt" => some option
  | "--dump-ir" => some dump
  | "--list-passes" => some listPasses
  | "--log" => some log
  | _ => none

/-- What a flag does: it switches something on, or it takes a value, which it may refuse. -/
inductive Effect where
  | switch (arguments : Arguments)
  | takes (store : String → Except String Arguments)

/-- A level by its name in any case of letters, given once. -/
def setThreshold (arguments : Arguments) (value : String) : Except String Arguments :=
  if arguments.threshold.isSome then .error "duplicate values provided"
  else
    match Threshold.ofName? value.toLower with
    | some threshold => .ok { arguments with threshold := some threshold }
    | none => .error "attempted to convert a string that doesn't match an existing log level"

/-- What a flag does to the arguments so far. -/
def Flag.effect (a : Arguments) : Flag → Effect
  | pass => .takes fun value => .ok { a with passes := a.passes ++ [value] }
  | disable => .takes fun value => .ok { a with disabled := a.disabled ++ [value] }
  | insert => .takes fun value => .ok { a with insertions := a.insertions ++ [value] }
  | option => .takes fun value => .ok { a with options := a.options ++ [value] }
  | dump => .switch { a with dump := true }
  | listPasses => .switch { a with listPasses := true }
  | log => .takes (setThreshold a)

/-! ## 2. Help -/

/-- The text that explains the command. -/
def helpText (command : String) : String :=
  "Usage: " ++ command ++ " [-p <pass...>] [-d <disable-pass...>] [-i <insert...>] "
    ++ "[-x <extra-opt...>] [--dump-ir] [--list-passes] [--log <log>]\n\n"
    ++ "Optimize the behavior graphs of an instruction set description.\n\n"
    ++ "Options:\n"
    ++ "  -p, --pass        run this pass or alias during execution\n"
    ++ "  -d, --disable-pass\n"
    ++ "                    disable pass during execution\n"
    ++ "  -i, --insert      make a pass run right after another one (`before:after`)\n"
    ++ "  -x, --extra-opt   extra options passed to the passes (`pass:opt` or\n"
    ++ "                    `pass:opt=value`)\n"
    ++ "  --dump-ir         print the IR after every pass\n"
    ++ "  --list-passes     list all the available passes and aliases\n"
    ++ "  --log             logging level\n"
    ++ "  --help, help      display usage information"

/-! ## 3. Reading -/

/-- White space that does not show at the end of a line. -/
def isBlank (c : Char) : Bool :=
  let n := c.toNat
  (9 ≤ n && n ≤ 13) || n = 0x20 || n = 0x85 || n = 0xA0 || n = 0x1680
    || (0x2000 ≤ n && n ≤ 0x200A) || n = 0x2028 || n = 0x2029 || n = 0x202F || n = 0x205F
    || n = 0x3000

/-- A text without the white space at its end. -/
def trimEnd (text : String) : String :=
  String.ofList (text.toList.reverse.dropWhile isBlank).reverse

/-- A complaint about the arguments. -/
def complain {α : Type} (message : String) : Except Error α :=
  .error (Error.other (trimEnd message))

/-- How far the reading has come. -/
structure Reading where
  arguments : Arguments := {}
  /-- Help was asked for. -/
  help : Bool := false
  /-- Options are over. -/
  plain : Bool := false

/-- Read the arguments from left to right. -/
def Reading.readAll (r : Reading) : List String → Except Error Reading
  | [] => .ok r
  | arg :: rest =>
    if r.plain then complain ("Unrecognized argument: " ++ arg)
    else if arg = "--help" || arg = "help" then { r with help := true }.readAll rest
    else if arg = "--" then { r with plain := true }.readAll rest
    else if !arg.startsWith "-" then complain ("Unrecognized argument: " ++ arg)
    else if r.help then complain "Trailing arguments are not allowed after `help`."
    else
      match Flag.ofName? arg, rest with
      | none, _ => complain ("Unrecognized argument: " ++ arg)
      | some flag, rest =>
        match flag.effect r.arguments, rest with
        | .switch arguments, rest => { r with arguments := arguments }.readAll rest
        | .takes _, [] => complain ("No value provided for option '" ++ arg ++ "'.")
        | .takes store, value :: rest =>
          match store value with
          | .ok arguments => { r with arguments := arguments }.readAll rest
          | .error reason =>
            complain ("Error parsing option '" ++ arg ++ "' with value '" ++ value ++ "': "
              ++ reason)

/-- **What was asked for**, or an error with the complaint or the help text (`parse`). -/
def Arguments.parse (command : String) (args : List String) : Except Error Arguments := do
  let reading ← Reading.readAll {} args
  if reading.help then complain (helpText command) else return reading.arguments

end BehaviorGraph
