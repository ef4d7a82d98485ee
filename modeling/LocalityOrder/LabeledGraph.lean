import LocalityOrder.Digraph.Basic
import LocalityOrder.Event
import LocalityOrder.Labels
import LocalityOrder.Text.Row

/-!
# Labelled graphs

A graph given as text: each row is a label followed by the labels of the vertices it points at.
The vertices are numbered in the order in which their labels are first seen, as the head of a row
or as a target.  A label may be the head of several rows; their targets follow each other.

The lines of the text are read one at a time: a line has to be UTF-8, and each label that is new in
it needs a number.  What goes wrong first decides.
-/

namespace LocalityOrder

/-- Where a text comes from. -/
inductive Source where
  | content (bytes : ByteArray)
  | unreadable (cause : Unreadable)

/-- A graph with a label for each vertex. -/
structure LabeledGraph where
  graph : Digraph
  labels : Labels

namespace LabeledGraph

/-- What is known of a graph while its lines are read. -/
structure Reading where
  labels : Labels
  edges : Array (Vertex × Vertex)

namespace Reading

def empty : Reading := ⟨.empty, #[]⟩

-- Reads one target of a row whose head has the number `v`.
def addTarget (v : Vertex) (r : Reading) (target : String) : Except Fault Reading := do
  let { labels, edges } := r
  let (w, labels) ← labels.see target
  return ⟨labels, edges.push (v, w)⟩

-- Reads a row.
def addRow (r : Reading) (row : Text.Row) : Except Fault Reading := do
  let { labels, edges } := r
  let (v, labels) ← labels.see row.head
  row.targets.foldlM (addTarget v) ⟨labels, edges⟩

-- Reads a line.
def addLine (r : Reading) (line : ByteArray) : Except Error Reading := do
  let line ← (Text.decode line).mapError .rejected
  match Text.Row.ofLine? line with
  | some row => (r.addRow row).mapError .fault
  | none => return r

-- The graph that was read.
def finish (r : Reading) : Except Fault LabeledGraph := do
  let { labels, edges } := r
  return ⟨← Digraph.ofEdges labels.size edges.toList, labels⟩

end Reading

-- The graph that a text describes.
def ofBytes (bytes : ByteArray) : Except Error LabeledGraph := do
  let reading ← (Text.lines bytes).foldlM Reading.addLine .empty
  reading.finish.mapError .fault

-- The graph that a text describes, if there is a text.
def ofSource : Source → Except Error LabeledGraph
  | .content bytes => ofBytes bytes
  | .unreadable cause => .error (.rejected (.unreadable cause))

-- The report of having read a graph.
def event (l : LabeledGraph) : Event :=
  let size := l.labels.size
  let edges := l.graph.edgeCount
  ⟨.info, s!"Read {size} vertices and {edges} edges"⟩

end LabeledGraph

end LocalityOrder
