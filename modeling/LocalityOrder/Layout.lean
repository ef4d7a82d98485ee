import LocalityOrder.Digraph.Renumber
import LocalityOrder.Event
import LocalityOrder.Placement
import LocalityOrder.Settings

/-!
# Layouts

The layout of a graph is an order of its vertices in which those that are close in the graph lie
close together.  `Digraph.localityOrder` gives the renumbering; `Digraph.layout` also gives what
the computation has to report.
-/

namespace LocalityOrder

/-- A finished layout. -/
structure Layout where
  edgeCount : Nat
  -- The vertices that have edges, in the order in which they were placed.
  placed : List Vertex
  -- The vertices without edges, ascending.
  isolated : List Vertex
  -- The vertex that came first, with its in-degree.
  first : Option (Vertex × Nat)
  renumbering : Renumbering

namespace Digraph

/-- Lays out a graph.  The window is checked first, then the edges. -/
def layout (g : Digraph) (settings : Settings) : Except Error Layout := do
  settings.validate.mapError .rejected
  let t ← Transpose.ofDigraph g
  let s ← (Placement.complete g t settings.window).mapError .fault
  let renumbering ← (Renumbering.ofOrder s.fullOrder).mapError fun rejection =>
    .fault (.invalidOrder rejection)
  return {
    edgeCount := t.edgeCount
    placed := s.order.toList
    isolated := s.isolated.toList
    first := s.first
    renumbering }

/-- The renumbering that stores the vertices of a graph in an order of high locality. -/
def localityOrder (g : Digraph) (settings : Settings) : Except Error Renumbering := do
  return (← g.layout settings).renumbering

/-- Lays out a graph and renumbers it accordingly. -/
def reordered (g : Digraph) (settings : Settings) : Except Error (Renumbering × Digraph) := do
  let p ← g.localityOrder settings
  return (p, ← (g.renumber p).mapError .fault)

end Digraph

namespace Layout

/-- How the vertex that came first is named in a report. -/
def firstText : Option (Vertex × Nat) → String
  | none => "None"
  | some (v, _) => "Some(" ++ v.label ++ ")"

-- The reports of a placing: the vertex and its place, and after every millionth how many are placed.
def placingEvents (connected : Nat) (v : Vertex) (place : Nat) : List Event :=
  let name := v.label
  let placing : Event := ⟨.trace, s!"Placing {name} at {place}"⟩
  let count := place + 1
  if count % 1000000 = 0 then [placing, ⟨.debug, s!"Placed {count} of {connected} vertices"⟩]
  else [placing]

/-- What there is to report of a layout, in the order in which it happened. -/
def events (l : Layout) (settings : Settings) : List Event :=
  let size := l.renumbering.size
  let edges := l.edgeCount
  let window := settings.window
  let isolated := l.isolated.length
  let start := firstText l.first
  let inDegree := (l.first.map Prod.snd).getD 0
  [⟨.debug, s!"Built incoming adjacency: {size} vertices, {edges} edges"⟩,
   ⟨.info, s!"Reordering {size} vertices and {edges} edges with window {window}"⟩,
   ⟨.debug, s!"{isolated} isolated vertices, starting from {start} with in-degree {inDegree}"⟩]
  ++ l.placed.zipIdx.flatMap fun (v, place) => placingEvents (size - isolated) v place

end Layout

end LocalityOrder
