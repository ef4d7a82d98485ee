import LocalityOrder.Digraph.Basic
import Mathlib.Algebra.GroupWithZero.Nat

/-!
# How close two vertices are

The affinity of two vertices counts the ways in which they are next to each other: an edge from
one to the other, an edge back, and, through each vertex with more than one edge, a pair of edges
to both.  Repeated edges count each time.  The affinity of a vertex and a window is the sum over
the window, and it is what a layout tries to make large.
-/

namespace LocalityOrder

namespace Digraph

/-- How often `w` occurs among the targets of `v`. -/
def multiplicity (g : Digraph) (v w : Vertex) : Nat := (g.targets v).count w

/-- The number of edges into `w`. -/
def inDegree (g : Digraph) (w : Vertex) : Nat :=
  ((Vertex.all g.size).map fun v => g.multiplicity v w).sum

/-- Neither end of any edge. -/
def IsIsolated (g : Digraph) (v : Vertex) : Prop := g.inDegree v = 0 ∧ g.outDegree v = 0

instance (g : Digraph) (v : Vertex) : Decidable (g.IsIsolated v) :=
  inferInstanceAs (Decidable (_ ∧ _))

/-- Every edge leads to a vertex of the graph. -/
def InRange (g : Digraph) : Prop := ∀ edge ∈ g.edges, edge.2 < g.size

instance (g : Digraph) : Decidable g.InRange := inferInstanceAs (Decidable (∀ edge ∈ _, _))

/-- The pairs of edges from a common source to `x` and to `v`. -/
def siblings (g : Digraph) (x v : Vertex) : Nat :=
  ((Vertex.all g.size).map fun u =>
    if 1 < g.outDegree u then g.multiplicity u x * g.multiplicity u v else 0).sum

def affinity (g : Digraph) (x v : Vertex) : Nat :=
  g.multiplicity v x + g.multiplicity x v + g.siblings x v

/-- The affinity of `v` and the vertices of a window. -/
def windowAffinity (g : Digraph) (window : List Vertex) (v : Vertex) : Nat :=
  (window.map fun x => g.affinity x v).sum

/-- By how much the score of `v` falls behind its affinity when `e` enters the window as `b`
leaves it.  A source of both has its siblings skipped: for each of its edges to `e`, but only for
one of its edges to `b`. -/
def slideDeficit (g : Digraph) (e b v : Vertex) : Nat :=
  ((Vertex.all g.size).map fun u =>
    if 0 < g.multiplicity u e ∧ 0 < g.multiplicity u b then
      (g.multiplicity u e - 1) * g.multiplicity u v
    else 0).sum

/-- How often the score of `p` can be raised while every vertex enters the window once: for each
edge at `p`, and for each edge to `p` together with an edge from the same source. -/
def traffic (g : Digraph) (p : Vertex) : Nat :=
  g.inDegree p + g.outDegree p
    + ((Vertex.all g.size).map fun u => g.multiplicity u p * g.outDegree u).sum

end Digraph

end LocalityOrder
