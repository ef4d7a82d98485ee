import LocalityOrder.Table

/-!
# Directed graphs

A graph on the vertices `0, …, size - 1` holds for each vertex the list of the vertices it points
at.  The lists keep their order and may repeat a vertex.  What a list names is not checked here:
an edge to a vertex that does not exist is found when the graph is transposed or renumbered.

Three ways of giving a graph are read: its lists, its edges one by one, and a flat buffer of
slots of one width.
-/

namespace LocalityOrder

/-- A directed graph with ordered lists of targets. -/
structure Digraph where
  lists : Table (List Vertex)
deriving DecidableEq, Repr

namespace Digraph

/-- The number of vertices. -/
def size (g : Digraph) : Nat := g.lists.size

/-- The targets of a vertex of the graph. -/
def neighbors (g : Digraph) (v : Vertex) : Except Fault (List Vertex) := g.lists.get v

/-- The targets of `v`, none if `v` is no vertex of the graph. -/
def targets (g : Digraph) (v : Vertex) : List Vertex := g.lists[v]?.getD []

def outDegree (g : Digraph) (v : Vertex) : Nat := (g.targets v).length

/-- The edges from `v`, in the order of its list. -/
def edgesOf (g : Digraph) (v : Vertex) : List (Vertex × Vertex) :=
  (g.targets v).map fun w => (v, w)

/-- The edges, by source and for each source in the order of its list. -/
def edges (g : Digraph) : List (Vertex × Vertex) := (Vertex.all g.size).flatMap g.edgesOf

def edgeCount (g : Digraph) : Nat :=
  g.lists.toList.foldl (fun count list => count + list.length) 0

/-- The graph whose vertex `v` has the list at place `v`. -/
def ofLists (lists : List (List Vertex)) : Digraph := ⟨.ofList lists⟩

def empty : Digraph := ofLists []

/-- The graph with the given edges.  The targets of a vertex keep the order of its edges; a source
that is no vertex is a fault. -/
def ofEdges (size : Nat) (edges : List (Vertex × Vertex)) : Except Fault Digraph := do
  let rows ← edges.foldlM (fun rows edge => rows.modify edge.1 (·.push edge.2))
    (Table.filled size #[])
  return ⟨rows.map Array.toList⟩

/-- The list that a slot holds: its entries before the first negative one. -/
def slotList (slot : List Int) : List Vertex := (slot.takeWhile (0 ≤ ·)).map Int.toNat

/-- The graph held in a flat buffer, `width` entries for each vertex. -/
def ofPadded (buffer : Array Int) (width : Nat) : Except Rejection Digraph :=
  if width = 0 ∨ buffer.size % width ≠ 0 then
    .error (.invalidPadding buffer.size width)
  else
    .ok (ofLists ((Vertex.all (buffer.size / width)).map fun v =>
      slotList (buffer.extract (v * width) ((v + 1) * width)).toList))

/-! ## Small facts -/

theorem neighbors_of_lt {g : Digraph} {v : Vertex} (h : v < g.size) :
    g.neighbors v = .ok (g.targets v) := by
  obtain ⟨list, hlist⟩ : ∃ list, g.lists[v]? = some list :=
    ⟨_, Array.getElem?_eq_getElem h⟩
  rw [neighbors, Table.get_eq_ok_iff, targets, hlist]
  rfl

theorem targets_of_le {g : Digraph} {v : Vertex} (h : g.size ≤ v) : g.targets v = [] := by
  have hv : g.lists[v]? = none := Array.getElem?_eq_none h
  rw [targets, hv]
  rfl

theorem mem_edges {g : Digraph} {v w : Vertex} : (v, w) ∈ g.edges ↔ w ∈ g.targets v := by
  simp only [edges, edgesOf, List.mem_flatMap, Vertex.mem_all, List.mem_map, Prod.mk.injEq]
  constructor
  · rintro ⟨u, _, x, hx, rfl, rfl⟩
    exact hx
  · intro hw
    refine ⟨v, ?_, w, hw, rfl, rfl⟩
    refine Nat.lt_of_not_le fun hv => ?_
    simp [targets_of_le hv] at hw

@[simp] theorem size_ofLists (lists : List (List Vertex)) :
    (ofLists lists).size = lists.length := rfl

end Digraph

end LocalityOrder
