import LocalityOrder.Digraph.Basic
import LocalityOrder.Proofs.Table

/-!
# Graphs given by their edges

The targets of a vertex are those of its edges, in the order in which the edges are given.
-/

namespace LocalityOrder

namespace Digraph

variable {g : Digraph} {edges : List (Vertex × Vertex)} {n v : Nat}

theorem of_ofEdges (h : ofEdges n edges = .ok g) : g.size = n ∧
    ∀ v, v < n → g.targets v = (edges.filter fun edge => edge.1 = v).map Prod.snd := by
  obtain ⟨rows, hrows, hg⟩ := bind_eq_ok_iff.mp h
  cases hg
  obtain ⟨hsize, hentries⟩ := Table.of_foldlM_push hrows
  constructor
  · show (rows.cells.map Array.toList).size = n
    rw [Array.size_map]
    exact hsize.trans (Table.size_filled n #[])
  · intro v hv
    have hrow := hentries v
    rw [Table.getElem?_filled, if_pos hv] at hrow
    show ((rows.cells.map Array.toList)[v]?).getD [] = _
    rw [Array.getElem?_map, ← Table.getElem?_eq, hrow]
    simp

theorem exists_ofEdges (h : ∀ edge ∈ edges, edge.1 < n) : ∃ g, ofEdges n edges = .ok g := by
  have hrows : ∀ edge ∈ edges, edge.1 < (Table.filled n (#[] : Array Vertex)).size := by
    rwa [Table.size_filled]
  obtain ⟨rows, hrows⟩ := Table.exists_foldlM_push hrows
  exact ⟨_, bind_eq_ok_iff.mpr ⟨rows, hrows, rfl⟩⟩

end Digraph

end LocalityOrder
