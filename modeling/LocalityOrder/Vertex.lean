/-!
# Vertices

A vertex is named by its place in a dense numbering: a graph with `n` vertices uses exactly the
ids `0, …, n - 1`.  Ids are plain natural numbers; that they stay below the number of vertices is
checked where a graph or an order is taken in, and never assumed.  An id has a name if 32 bits can
hold it, and where vertices are named one after the other, running out of names is a fault.
-/

namespace LocalityOrder

/-- The id of a vertex. -/
abbrev Vertex := Nat

namespace Vertex

/-- The largest id that has a name. -/
def largest : Nat := 4294967295

/-- The ids below `n`, ascending, with names or without. -/
def all (n : Nat) : List Vertex := List.range n

/-- A vertex as messages name it. -/
def label (v : Vertex) : String := s!"v{v}"

@[simp] theorem mem_all {n : Nat} {v : Vertex} : v ∈ all n ↔ v < n := List.mem_range

@[simp] theorem length_all (n : Nat) : (all n).length = n := List.length_range

end Vertex

end LocalityOrder
