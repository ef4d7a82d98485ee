import LocalityOrder.Digraph.Basic

/-!
# Transposes

The transpose of a graph answers which vertices point at a given one.  The sources of all vertices
lie one after the other in one table, and a span for each vertex says where its own begin and end.
The sources of a vertex ascend, and a source occurs once for each of its edges to the vertex.

Building the transpose is where a graph is checked: an edge to a vertex that does not exist is
refused, and of several the first is named.  More vertices than there are names, or more edges than
there are places in 32 bits, are a fault.
-/

namespace LocalityOrder

/-- Places from `start` up to, and without, `stop`. -/
structure Span where
  start : Nat
  stop : Nat
deriving DecidableEq

/-- The sources of every vertex of a graph. -/
structure Transpose where
  sources : Table Vertex
  spans : Table Span
deriving DecidableEq

namespace Transpose

-- The largest number of edges whose places fit in 32 bits.
def mostEdges : Nat := 4294967295

def empty : Transpose := ⟨⟨#[]⟩, ⟨#[]⟩⟩

-- The number of vertices.
def size (t : Transpose) : Nat := t.spans.size

def edgeCount (t : Transpose) : Nat := t.sources.size

-- The transpose with one vertex more, whose sources are `row`.
def addVertex (t : Transpose) (row : Array Vertex) : Transpose :=
  let { sources, spans } := t
  let start := sources.size
  ⟨⟨sources.cells ++ row⟩, ⟨spans.cells.push ⟨start, start + row.size⟩⟩⟩

-- The sources of each vertex, in the order in which the edges come.
def rows (size : Nat) (edges : List (Vertex × Vertex)) : Except Fault (Table (Array Vertex)) :=
  edges.foldlM (fun rows edge => rows.modify edge.2 (·.push edge.1)) (Table.filled size #[])

-- The first edge to a vertex that does not exist.
def strayEdge? (g : Digraph) : Option (Vertex × Vertex) :=
  g.edges.find? fun edge => g.size ≤ edge.2

/-- The transpose of a graph.  Its vertices are named one after the other; an id with a name never
leads out of a graph whose names run out, so an edge that leads out of the graph can be looked for
first. -/
def ofDigraph (g : Digraph) : Except Error Transpose :=
  match strayEdge? g with
  | some (v, w) => .error (.rejected (.vertexOutOfRange v w g.size))
  | none => do
    let vertices ← (Vertex.named g.size).mapError .fault
    let edges := vertices.flatMap g.edgesOf
    let rows ← (rows g.size edges).mapError .fault
    if mostEdges < edges.length then
      .error (.fault (.tooManyEdges edges.length))
    else
      .ok (rows.cells.foldl addVertex empty)

-- Where the sources of `v` lie.
def span (t : Transpose) (v : Vertex) : Except Fault Span := t.spans.get v

-- The number of edges to `v`.
def degree (t : Transpose) (v : Vertex) : Except Fault Nat := do
  let span ← t.span v
  return span.stop - span.start

-- The vertices that point at `v`.
def sourcesOf (t : Transpose) (v : Vertex) : Except Fault (List Vertex) := do
  let span ← t.span v
  t.sources.slice span.start span.stop

-- The ends of all spans, each vertex's start before its stop.
def offsets (t : Transpose) : List Nat :=
  t.spans.toList.flatMap fun span => [span.start, span.stop]

end Transpose

end LocalityOrder
