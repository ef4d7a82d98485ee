import LocalityOrder.Digraph.Basic
import LocalityOrder.Renumbering

/-!
# Renumbering a graph

Each vertex keeps its list, in order, at its new id, and every id in the list becomes the new id
of the same vertex.
-/

namespace LocalityOrder

namespace Digraph

/-- The targets of the vertex with the given old id, by their new ids. -/
def renumberedTargets (g : Digraph) (p : Renumbering) (old : Vertex) :
    Except Fault (List Vertex) := do
  (← g.neighbors old).mapM p.newOf

/-- The graph under its new ids.  The renumbering has to be of the size of the graph, and an edge
to a vertex that does not exist has no new id. -/
def renumber (g : Digraph) (p : Renumbering) : Except Fault Digraph :=
  if p.size = g.size then do
    return ofLists (← p.newToOld.toList.mapM (g.renumberedTargets p))
  else
    .error (.sizeMismatch .graph p.size g.size)

end Digraph

end LocalityOrder
