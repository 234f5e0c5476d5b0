/-
# Definitions and contexts

A definition is a function, an instruction or a stage with the graph of its behaviour; the graph
knows the definition as its owner.  A context is a list of definitions together with the options
given for the passes that will run on them.  Names of definitions need not be distinct.

The names of the lookups are `find_param`, `find` and `definitions_of`; a behaviour is exchanged by
`replace_behavior`.
-/
import BehaviorGraph.Graph.Basic

namespace BehaviorGraph

/-- A declared parameter. -/
structure Param where
  name : String
  type : ValueType
deriving DecidableEq

/-- A function, instruction or stage. -/
structure Definition where
  name : String
  role : Role
  params : List Param := []
  /-- The declared type of the result, if there is one. -/
  result : Option ValueType := none
  position : Option Span := none
  behavior : Graph
deriving DecidableEq

namespace Definition

/-- The definition as the owner of its behaviour. -/
def asOwner (d : Definition) : Owner := ⟨d.name, d.role, d.position⟩

/-- The definition with another behaviour, which it then owns (`replace_behavior`). -/
def withBehavior (d : Definition) (behavior : Graph) : Definition :=
  { d with behavior := behavior.setOwner d.asOwner }

/-- A definition that owns its behaviour. -/
def make (name : String) (role : Role) (params : List Param) (result : Option ValueType)
    (position : Option Span) (behavior : Graph) : Definition :=
  let d : Definition :=
    { name := name, role := role, params := params, result := result, position := position
      behavior := behavior }
  d.withBehavior behavior

/-- The first parameter of a name (`find_param`). -/
def param? (d : Definition) (name : String) : Option Param :=
  d.params.find? fun param => decide (param.name = name)

end Definition

/-- Every definition of a specification. -/
structure Context where
  definitions : List Definition := []
  /-- Options for passes, as they were given. -/
  options : List String := []
deriving DecidableEq

namespace Context

/-- The first definition of a name (`find`). -/
def find? (context : Context) (name : String) : Option Definition :=
  context.definitions.find? fun d => decide (d.name = name)

/-- The definitions of a role, in order (`definitions_of`). -/
def ofRole (context : Context) (role : Role) : List Definition :=
  context.definitions.filter fun d => decide (d.role = role)

end Context

end BehaviorGraph
