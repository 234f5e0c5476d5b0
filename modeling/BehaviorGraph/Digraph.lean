/-
# Directed graphs: searching and ordering

Plain directed graphs and the two questions the library asks of them: what can be reached from a
vertex, and in what order the vertices can be listed so that every edge points forward.

Both walks keep their pending work on an explicit stack.  Each step either shortens the stack or
discovers a vertex, and the number of vertices that can still be discovered is the first component
of the measure, so the walks end without looking at the shape of the graph.  The bound is handed in
by the caller; when it is at least the number of vertices in reach it is never used up.

Orders are fixed down to the last tie.  `search` visits what `next` lists first; `order?` finishes
the vertices depth first, taking vertices and edges in the order in which they were inserted.

Both are those of the graph library the compiler uses: its depth-first search (`Dfs`), its order
(`toposort`) and its test for cycles (`is_cyclic_directed`), ties included.
-/
namespace BehaviorGraph

/-! ## 1. Searching -/

section Search

variable {α : Type} [DecidableEq α]

/-- Go through the stack, pushing what is `next` to each vertex met for the first time.  The result
lists the vertices seen, the last one first. -/
def search (next : α → List α) (bound : Nat) (stack seen : List α) : List α :=
  match stack with
  | [] => seen
  | v :: rest =>
    if v ∈ seen then search next bound rest seen
    else
      match bound with
      | 0 => seen
      | bound + 1 => search next bound (next v ++ rest) (v :: seen)
termination_by (bound, stack.length)

end Search

/-- A pending step of a depth-first walk that also notices when it is done with a vertex. -/
inductive Task (α : Type) where
  /-- Discover a vertex, then everything behind it. -/
  | enter (v : α)
  /-- Everything behind the vertex is done. -/
  | leave (v : α)
deriving DecidableEq

/-! ## 2. Directed graphs -/

/-- A directed graph; vertices and edges are listed once each, in order of insertion. -/
structure Digraph (α : Type) where
  vertices : List α := []
  edges : List (α × α) := []

namespace Digraph

variable {α : Type} [DecidableEq α]

/-- Add a vertex unless it is there. -/
def addVertex (g : Digraph α) (v : α) : Digraph α :=
  if v ∈ g.vertices then g else { g with vertices := g.vertices ++ [v] }

/-- Add an edge unless it is there; its source and then its target become vertices. -/
def addEdge (g : Digraph α) (source target : α) : Digraph α :=
  let g := (g.addVertex source).addVertex target
  if (source, target) ∈ g.edges then g else { g with edges := g.edges ++ [(source, target)] }

/-- The targets of the edges that leave a vertex. -/
def next (g : Digraph α) (v : α) : List α :=
  (g.edges.filter fun e => decide (e.1 = v)).map Prod.snd

/-- The sources of the edges that enter a vertex. -/
def previous (g : Digraph α) (v : α) : List α :=
  (g.edges.filter fun e => decide (e.2 = v)).map Prod.fst

/-- The vertices in reach of `start`, in the order of a depth-first search that follows **the edge
added last first** (`Dfs`). -/
def depthFirst (g : Digraph α) (start : α) : List α :=
  (search (fun v => (g.next v).reverse) (1 + g.edges.length) [start] []).reverse

/-! ## 3. Ordering -/

/-- Walk depth first and list the vertices, **each in front of everything finished before it**.  The
walk fails at the first vertex it discovers that has an edge to itself. -/
def finishOrder (g : Digraph α) (bound : Nat) (tasks : List (Task α))
    (discovered finished : List α) : Except α (List α) :=
  match tasks with
  | [] => .ok finished
  | .leave v :: rest => finishOrder g bound rest discovered (v :: finished)
  | .enter v :: rest =>
    if v ∈ discovered then finishOrder g bound rest discovered finished
    else if v ∈ g.next v then .error v
    else
      match bound with
      | 0 => .ok finished
      | bound + 1 =>
        finishOrder g bound ((g.next v).map .enter ++ .leave v :: rest) (v :: discovered) finished
termination_by (bound, tasks.length)

/-- The source of the first edge that does not point forward in a list: of the first vertex that has
such an edge, the edge added first. -/
def firstBackward (g : Digraph α) (placed : List α) : List α → Option α
  | [] => none
  | v :: rest =>
    match (g.previous v).find? fun u => !decide (u ∈ v :: placed) with
    | some u => some u
    | none => firstBackward g (v :: placed) rest

/-- **The vertices in an order in which every edge points forward**, or a vertex on a cycle
(`toposort`). -/
def order? (g : Digraph α) : Except α (List α) := do
  let order ← finishOrder g g.vertices.length (g.vertices.map .enter) [] []
  match firstBackward g [] order with
  | some v => .error v
  | none => .ok order

/-- Whether there is a directed cycle (`is_cyclic_directed`). -/
def isCyclic (g : Digraph α) : Bool :=
  match g.order? with
  | .error _ => true
  | .ok _ => false

end Digraph

end BehaviorGraph
