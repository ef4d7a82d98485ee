import LocalityOrder.RunQueue.Extract
import LocalityOrder.Transpose

/-!
# Scores of a window

The effective key of a vertex in the queue is its affinity to the window, that is to the vertices
placed last.  When a vertex enters the window, its neighbors and its siblings, the other targets of
its sources, gain one for each edge; when a vertex leaves, they lose it again.

A source of both the entering and the leaving vertex would raise and lower the same siblings, so
both changes are skipped.  The skip is noted when the vertex enters and used up when the other one
leaves; it is used up only once in a slide, however often an edge of the source is repeated.
-/

namespace LocalityOrder

/-- The scores of the vertices with respect to a window. -/
structure WindowScores where
  -- The vertices, by affinity to the window.
  queue : RunQueue
  -- The vertices whose siblings were skipped when the last vertex entered the window.
  skipped : Table Bool
deriving DecidableEq

namespace WindowScores

/-- Counts one edge more for `v`.  Where a decrease is pending, it shrinks. -/
def increment (q : RunQueue) (v : Vertex) : Except Fault RunQueue := do
  if (← q.pendingOf v) = 0 then q.raise v else q.addPending v 1

/-- Counts one edge less for `v`. -/
def decrement (q : RunQueue) (v : Vertex) : Except Fault RunQueue := q.addPending v (-1)

/-- Counts an edge from `u` to the vertex that enters the window. -/
def enterFrom (g : Digraph) (leaving : Option Vertex) (s : WindowScores) (u : Vertex) :
    Except Fault WindowScores := do
  let { queue, skipped } := s
  let queue ← increment queue u
  let siblings ← g.neighbors u
  if siblings.length ≤ 1 then
    return { queue, skipped }
  if leaving.any fun b => siblings.contains b then
    let skipped ← skipped.put u true
    return { queue, skipped }
  let queue ← siblings.foldlM increment queue
  return { queue, skipped }

/-- Counts the edges of the vertex that enters the window. -/
def enter (g : Digraph) (t : Transpose) (leaving : Option Vertex) (s : WindowScores)
    (v : Vertex) : Except Fault WindowScores := do
  let { queue, skipped } ← (← t.sourcesOf v).foldlM (enterFrom g leaving) s
  let queue ← (← g.neighbors v).foldlM increment queue
  return { queue, skipped }

/-- Takes back an edge from `u` to the vertex that leaves the window. -/
def leaveFrom (g : Digraph) (s : WindowScores) (u : Vertex) : Except Fault WindowScores := do
  let { queue, skipped } := s
  let queue ← decrement queue u
  let siblings ← g.neighbors u
  if siblings.length ≤ 1 then
    return { queue, skipped }
  if ← skipped.get u then
    let skipped ← skipped.put u false
    return { queue, skipped }
  let queue ← siblings.foldlM decrement queue
  return { queue, skipped }

/-- Takes back the edges of the vertex that leaves the window. -/
def leave (g : Digraph) (t : Transpose) (s : WindowScores) (v : Vertex) :
    Except Fault WindowScores := do
  let { queue, skipped } ← (← t.sourcesOf v).foldlM (leaveFrom g) s
  let queue ← (← g.neighbors v).foldlM decrement queue
  return { queue, skipped }

/-- Slides the window over a vertex, another one leaving it if the window is full. -/
def slide (g : Digraph) (t : Transpose) (entering : Vertex) (leaving : Option Vertex)
    (s : WindowScores) : Except Fault WindowScores := do
  let s ← s.enter g t leaving entering
  match leaving with
  | none => return s
  | some b => s.leave g t b

end WindowScores

end LocalityOrder
