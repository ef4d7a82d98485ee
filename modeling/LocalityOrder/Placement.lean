import LocalityOrder.WindowScores

/-!
# Placements

A placement lays the vertices of a graph out one at a time.  The first vertex is the one with the
most edges into it; after that, the next vertex is always the one at the head of the queue, once the
window has slid over the vertex before it.

A vertex that has been placed still receives changes of its score.  They gather in its pending
change, which starts far above every score.  The vertices without edges are set aside and come last.
-/

namespace LocalityOrder

/-- A layout in the making. -/
structure Placement where
  -- The scores, with the vertices still to be placed in the queue.
  scores : WindowScores
  -- The vertices placed so far.
  order : Array Vertex
  -- The vertices without edges, ascending.
  isolated : Array Vertex
  -- The vertex to start from, with its in-degree.
  first : Option (Vertex × Nat)
deriving DecidableEq

namespace Placement

/-- Takes a vertex out of the queue, its pending change marking it as placed. -/
def setAside (s : WindowScores) (v : Vertex) : Except Fault WindowScores := do
  let { queue, skipped } := s
  let queue ← queue.remove v
  let queue ← queue.setPending v .placed
  return { queue, skipped }

/-- Gives `v` the next place. -/
def place (s : Placement) (v : Vertex) : Except Fault Placement := do
  let { scores, order, isolated, first } := s
  let scores ← setAside scores v
  return { scores, order := order.push v, isolated, first }

/-! ## Starting -/

/-- The queue of all vertices, sorted by in-degree, with all effective keys zero.  Until its
in-degree has been folded away, a vertex stands further ahead than its score says: it comes before
vertices of the same score and a smaller in-degree, and it can come before one of a higher score. -/
def startingQueue (g : Digraph) (t : Transpose) : Except Fault RunQueue := do
  -- a queue cannot be made for more ids than have names
  let q ← RunQueue.new g.size
  let degrees ← (Vertex.all g.size).mapM t.degree
  let scores := degrees.map Score.ofCount
  let q ← q.assignKeys (.ofList scores)
  scores.zipIdx.foldlM (fun q (score, v) => do q.setPending v (← Score.neg score)) q

/-- Looks at one vertex before anything is placed: sets it aside if it has no edges, and otherwise
remembers it if no vertex before it has as many edges into it. -/
def survey (g : Digraph) (t : Transpose) (s : Placement) (v : Vertex) :
    Except Fault Placement := do
  let inDegree ← t.degree v
  let neighbors ← g.neighbors v
  let { scores, order, isolated, first } := s
  if inDegree = 0 ∧ neighbors = [] then
    let scores ← setAside scores v
    return { scores, order, isolated := isolated.push v, first }
  match first with
  | none => return { scores, order, isolated, first := some (v, inDegree) }
  | some (best, largest) =>
    let first := if largest < inDegree then (v, inDegree) else (best, largest)
    return { scores, order, isolated, first := some first }

/-- Before anything is placed, with the vertices without edges set aside. -/
def surveyed (g : Digraph) (t : Transpose) : Except Fault Placement := do
  let queue ← startingQueue g t
  (Vertex.all g.size).foldlM (survey g t)
    { scores := ⟨queue, .filled g.size false⟩, order := #[], isolated := #[], first := none }

/-- The placement of the first vertex, if any vertex has edges. -/
def start (g : Digraph) (t : Transpose) : Except Fault Placement := do
  let s ← surveyed g t
  match s.first with
  | none => return s
  | some (v, _) => s.place v

/-! ## Going on -/

/-- The vertex that leaves a window of the given width when the vertex placed last enters it. -/
def leaving (s : Placement) (window : Nat) : Option Vertex :=
  if window < s.order.size then s.order[s.order.size - window - 1]? else none

/-- Slides the window over the vertex placed last. -/
def slide (g : Digraph) (t : Transpose) (window : Nat) (s : Placement) :
    Except Fault Placement := do
  match s.order.back? with
  | none => return s
  | some entering =>
    let left := s.leaving window
    let { scores, order, isolated, first } := s
    let scores ← scores.slide g t entering left
    return { scores, order, isolated, first }

/-- Places the vertex at the head of the queue. -/
def placeBest (s : Placement) : Except Fault Placement := do
  let { scores := { queue, skipped }, order, isolated, first } := s
  let (v, queue) ← queue.extractMax
  place { scores := { queue, skipped }, order, isolated, first } v

/-- Places `count` vertices more. -/
def advance (g : Digraph) (t : Transpose) (window : Nat) :
    (count : Nat) → Placement → Except Fault Placement
  | 0, s => .ok s
  | count + 1, s => do
      let s ← s.slide g t window
      let s ← s.placeBest
      s.advance g t window count

/-- The placement of all vertices that have edges. -/
def complete (g : Digraph) (t : Transpose) (window : Nat) : Except Fault Placement := do
  let s ← start g t
  s.advance g t window (g.size - s.isolated.size - s.order.size)

/-- All vertices in the order of the placement, those without edges last. -/
def fullOrder (s : Placement) : List Vertex := s.order.toList ++ s.isolated.toList

end Placement

end LocalityOrder
