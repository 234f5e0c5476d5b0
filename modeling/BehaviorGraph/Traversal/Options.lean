/-
# Options of passes

A pass declares its options, each with a default and a parser.  Values are given for all passes
together as texts `pass:option=value`, or `pass:option` for short, **which stands for the value true
whatever the parser says**.  Texts for other passes are ignored silently, unknown options and values
that do not parse with a warning; of several values for one option the last one counts.

An option is a `PassOpt`, and its value a `ParseVal`; the values of a pass are read by `get_opts`.
-/
import BehaviorGraph.Run
import BehaviorGraph.Error
import BehaviorGraph.Table
import BehaviorGraph.Text

namespace BehaviorGraph

/-! ## 1. Values -/

/-- The value of an option (`ParseVal`). -/
inductive OptionValue where
  | bool (b : Bool)
  | num (n : Int)
  | list (values : List OptionValue)

namespace OptionValue

/-- The text of a value. -/
def text : OptionValue → String
  | bool b => if b then "true" else "false"
  | num n => toString n
  | list values => "[" ++ String.intercalate ", " (values.map fun value => value.text) ++ "]"

/-- The truth value it is (`bool`). -/
def toBool : OptionValue → Except Error Bool
  | bool b => .ok b
  | value => .error (Error.other ("Expected bool, got " ++ value.text))

/-- The number it is (`num`). -/
def toNum : OptionValue → Except Error Int
  | num n => .ok n
  | value => .error (Error.other ("Expected number, got " ++ value.text))

/-- The number it is, unless that is negative (`pos_num`). -/
def toLimit (value : OptionValue) : Except Error (Option Nat) := do
  match ← value.toNum with
  | .ofNat n => return some n
  | .negSucc _ => return none

/-- The numbers it lists (`num_list`). -/
def toNums : OptionValue → Except Error (List Int)
  | list values => values.mapM toNum
  | value => .error (Error.other ("Expected list of numbers, got " ++ value.text))

/-! ## 2. Parsers -/

def parseBool : String → Option OptionValue
  | "true" => some (bool true)
  | "false" => some (bool false)
  | _ => none

def parseNum (s : String) : Option OptionValue := (readInt64? s).map num

/-- Numbers with commas between them. -/
def parseNums (s : String) : Option OptionValue := ((splitAll ',' s).mapM parseNum).map list

end OptionValue

/-! ## 3. Options -/

/-- An option a pass declares (`PassOpt`). -/
structure PassOption where
  name : String
  description : String
  default : OptionValue
  parse : String → Option OptionValue

/-- Who a pass is and what can be set (`Named`). -/
structure PassInfo where
  name : String
  description : String
  options : List PassOption := []

namespace PassInfo

/-- The description of a pass with its options, one on a line. -/
def help (info : PassInfo) : String :=
  let lines := info.options.map fun o =>
    "\n  * " ++ o.name ++ ": " ++ o.description ++ " (default: " ++ o.default.text ++ ")"
  "- " ++ info.name ++ ": " ++ info.description ++ String.join lines

/-- What one of the given texts says about a pass. -/
inductive Reading where
  /-- Nothing: it is for another pass, or not of the right form. -/
  | irrelevant
  | unknown (option : String)
  | invalid (option value : String)
  | set (option : String) (value : OptionValue)

/-- Read one of the given texts. -/
def readOption (info : PassInfo) (given : String) : Reading :=
  match splitOnce ':' given with
  | none => .irrelevant
  | some (pass, rest) =>
    if pass = info.name then
      let (name, value) :=
        match splitOnce '=' rest with
        | some (name, value) => (name, some value)
        | none => (rest, none)
      match info.options.find? fun o => decide (o.name = name), value with
      | none, _ => .unknown name
      | some o, none => .set o.name (.bool true)
      | some o, some value =>
        match o.parse value with
        | some parsed => .set o.name parsed
        | none => .invalid o.name value
    else .irrelevant

/-- Collect what the given texts set, warning about those that set nothing. -/
def collectOptions {ε σ : Type} (info : PassInfo) (values : Table String OptionValue) :
    List String → Run ε σ (Table String OptionValue)
  | [] => return values
  | given :: rest =>
    match info.readOption given with
    | .irrelevant => collectOptions info values rest
    | .set name value => collectOptions info (values.insert name value) rest
    | .unknown name => do
      Run.log .warn ("Ignoring unknown option for pass `" ++ info.name ++ "`: " ++ name)
      collectOptions info values rest
    | .invalid name value => do
      Run.log .warn ("Ignoring invalid value for option `" ++ info.name ++ ":" ++ name ++ "`: "
        ++ value)
      collectOptions info values rest

/-- Put the default of every declared option behind what is set, unless the option is set. -/
def fillDefaults (info : PassInfo) (values : Table String OptionValue) :
    Table String OptionValue :=
  info.options.foldl
    (fun values o => if values.contains o.name then values else values.insert o.name o.default)
    values

/-- **The value of every declared option** (`get_opts`). -/
def resolve {ε σ : Type} (info : PassInfo) (given : List String) :
    Run ε σ (Table String OptionValue) := do
  let values ← info.collectOptions Table.empty given
  let shown := values.entries.map fun entry => entry.1 ++ "->" ++ entry.2.text
  Run.log .debug ("Extra options for " ++ info.name ++ ": " ++ String.intercalate ", " shown)
  return info.fillDefaults values

end PassInfo

end BehaviorGraph
