/-
# Kinds of nodes and their families

A node is of one of 26 kinds.  Families group kinds that may stand in the same places: an edge slot
asks for a family, a filter picks a kind or a family, and a traversal falls back from a kind to its
families.
-/
namespace BehaviorGraph

/-! ## 1. Families -/

/-- A group of kinds. -/
inductive Family where
  /-- Every kind. -/
  | any
  /-- Nodes of the control flow. -/
  | control
  /-- Control nodes a behaviour ends with. -/
  | terminal
  /-- Control nodes that close a block and gather its side effects. -/
  | blockEnd
  /-- Nodes off the control flow. -/
  | dependency
  /-- Dependencies that yield a value. -/
  | value
  /-- Dependencies that change the state of the machine. -/
  | sideEffect
  /-- Conversions of width and type. -/
  | cast
  /-- Kinds of which a graph keeps one node for each payload. -/
  | unique
deriving DecidableEq

namespace Family

def all : List Family :=
  [any, control, terminal, blockEnd, dependency, value, sideEffect, cast, unique]

def name : Family → String
  | any => "Any"
  | control => "Control"
  | terminal => "Terminal"
  | blockEnd => "BlockEnd"
  | dependency => "Dependency"
  | value => "Value"
  | sideEffect => "SideEffect"
  | cast => "Cast"
  | unique => "Unique"

def ofName? (name : String) : Option Family := all.find? fun family => decide (family.name = name)

end Family

/-! ## 2. Kinds -/

/-- What a node does. -/
inductive Kind where
  /-- Where a behaviour starts. -/
  | start
  /-- Where a branch starts. -/
  | blockStart
  /-- A two-way branch. -/
  | branch
  /-- Where branches join. -/
  | merge
  /-- The end of a branch. -/
  | branchEnd
  /-- The end of a function. -/
  | ret
  /-- The end of an instruction. -/
  | instrEnd
  /-- The end of a stage. -/
  | procEnd
  | const
  | param
  | field
  | builtInCall
  | funcCall
  | select
  | slice
  /-- A name for a value. -/
  | binding
  | zeroExtend
  | signExtend
  | truncate
  | typeCast
  | readReg
  | readRegFile
  | readMem
  | writeReg
  | writeRegFile
  | writeMem
deriving DecidableEq

namespace Kind

/-- Every kind. -/
def all : List Kind :=
  [start, blockStart, branch, merge, branchEnd, ret, instrEnd, procEnd, const, param, field,
    builtInCall, funcCall, select, slice, binding, zeroExtend, signExtend, truncate, typeCast,
    readReg, readRegFile, readMem, writeReg, writeRegFile, writeMem]

def name : Kind → String
  | start => "Start"
  | blockStart => "Begin"
  | branch => "If"
  | merge => "Merge"
  | branchEnd => "BranchEnd"
  | ret => "Return"
  | instrEnd => "InstrEnd"
  | procEnd => "ProcEnd"
  | const => "Const"
  | param => "FuncParam"
  | field => "FieldRef"
  | builtInCall => "BuiltInCall"
  | funcCall => "FuncCall"
  | select => "Select"
  | slice => "Slice"
  | binding => "Let"
  | zeroExtend => "ZeroExtend"
  | signExtend => "SignExtend"
  | truncate => "Truncate"
  | typeCast => "TypeCast"
  | readReg => "ReadReg"
  | readRegFile => "ReadRegFile"
  | readMem => "ReadMem"
  | writeReg => "WriteReg"
  | writeRegFile => "WriteRegFile"
  | writeMem => "WriteMem"

def ofName? (name : String) : Option Kind := all.find? fun kind => decide (kind.name = name)

/-- The families of a kind, besides the family of all kinds. -/
def families : Kind → List Family
  | start | blockStart | branch | merge => [.control]
  | branchEnd => [.control, .blockEnd]
  | ret | instrEnd | procEnd => [.control, .blockEnd, .terminal]
  | const | param | field => [.dependency, .value, .unique]
  | builtInCall | funcCall | select | slice | binding => [.dependency, .value]
  | zeroExtend | signExtend | truncate | typeCast => [.dependency, .value, .cast]
  | readReg | readRegFile | readMem => [.dependency, .value]
  | writeReg | writeRegFile | writeMem => [.dependency, .sideEffect]

/-- Whether a kind belongs to a family. -/
def isA (kind : Kind) (family : Family) : Bool :=
  decide (family = .any) || kind.families.contains family

/-- Whether a graph keeps one node of this kind for each payload. -/
def isUnique (kind : Kind) : Bool := kind.isA .unique

end Kind

/-! ## 3. Filters -/

/-- A choice of nodes by kind or by family (`NodeFilter`). -/
inductive Filter where
  | exactly (kind : Kind)
  | family (family : Family)
deriving DecidableEq

/-- Whether a filter picks a kind (`matches`). -/
def Filter.admits : Filter → Kind → Bool
  | exactly wanted, kind => decide (wanted = kind)
  | family wanted, kind => kind.isA wanted

end BehaviorGraph
