import LocalityOrder.Digraph.Affinity
import Mathlib.Algebra.BigOperators.Group.Finset.Basic
import Mathlib.Algebra.BigOperators.Group.Finset.Piecewise

/-!
# Sources and multiplicities

The sources of a vertex, in the order of the edges, and how often each of them occurs.  What is
counted over all vertices is summed over a finite set, so that sums can be split and exchanged.
-/

namespace LocalityOrder

theorem Vertex.sum_all (n : Nat) (f : Vertex → Nat) :
    ((Vertex.all n).map f).sum = ∑ u ∈ Finset.range n, f u := rfl

namespace Digraph

/-- The sources of the edges to `v`, in the order of the edges. -/
def sources (g : Digraph) (v : Vertex) : List Vertex :=
  (g.edges.filter fun edge => edge.2 = v).map Prod.fst

variable {g : Digraph} {u v : Vertex}

theorem map_targets_all (g : Digraph) : (Vertex.all g.size).map g.targets = g.lists.toList := by
  refine List.ext_getElem ?_ fun v hv hv' => ?_
  · rw [List.length_map, Vertex.length_all]
    rfl
  · have hentry : g.lists[v]? = some g.lists.toList[v] := Array.getElem?_eq_getElem hv'
    rw [List.getElem_map]
    simp only [Vertex.all, List.getElem_range, targets]
    rw [hentry, Option.getD_some]

-- Graphs of one size whose vertices have the same targets are the same.
theorem ext_targets {h : Digraph} (hsize : g.size = h.size)
    (htargets : ∀ v, v < g.size → g.targets v = h.targets v) : g = h := by
  have hlists : g.lists.toList = h.lists.toList := by
    rw [← map_targets_all, ← map_targets_all, ← hsize]
    apply List.map_congr_left
    intro v hv
    exact htargets v (Vertex.mem_all.mp hv)
  calc g = ofLists g.lists.toList := rfl
    _ = ofLists h.lists.toList := by rw [hlists]
    _ = h := rfl

theorem length_edges (g : Digraph) : g.edges.length = g.edgeCount := by
  have hcount : g.edgeCount = (g.lists.toList.map List.length).sum := by
    rw [List.sum_eq_foldl, List.foldl_map]
    rfl
  unfold edges edgesOf
  rw [hcount, List.length_flatMap, ← map_targets_all, List.map_map]
  simp only [List.length_map]
  rfl

theorem edgeCount_eq_sum (g : Digraph) :
    g.edgeCount = ((Vertex.all g.size).map g.outDegree).sum := by
  rw [← g.length_edges, edges, List.length_flatMap]
  simp only [edgesOf, List.length_map]
  rfl

theorem lt_size_of_mem_targets (hv : v ∈ g.targets u) : u < g.size := by
  apply Nat.lt_of_not_le
  intro hle
  rw [targets_of_le hle] at hv
  cases hv

theorem inRange_iff : g.InRange ↔ ∀ v, ∀ w ∈ g.targets v, w < g.size := by
  constructor
  · intro hrange v w hw
    exact hrange (v, w) (mem_edges.mpr hw)
  · intro hrange edge hedge
    exact hrange edge.1 edge.2 (mem_edges.mp hedge)

theorem multiplicity_of_le (hu : g.size ≤ u) : g.multiplicity u v = 0 := by
  rw [multiplicity, targets_of_le hu, List.count_nil]

theorem multiplicity_pos_iff : 0 < g.multiplicity u v ↔ v ∈ g.targets u := List.count_pos_iff

theorem sources_eq_flatMap (g : Digraph) (v : Vertex) :
    g.sources v = (Vertex.all g.size).flatMap fun u => List.replicate (g.multiplicity u v) u := by
  unfold sources edges edgesOf
  rw [List.filter_flatMap, List.map_flatMap]
  apply List.flatMap_congr
  intro u _
  rw [List.filter_map, List.map_map]
  change ((g.targets u).filter fun w => decide (w = v)).map (fun _ => u) = _
  rw [List.map_const', ← List.countP_eq_length_filter]
  rfl

theorem mem_sources : u ∈ g.sources v ↔ v ∈ g.targets u := by
  rw [sources_eq_flatMap, List.mem_flatMap]
  constructor
  · rintro ⟨w, -, hw⟩
    obtain ⟨hne, rfl⟩ := List.mem_replicate.mp hw
    exact multiplicity_pos_iff.mp (Nat.pos_of_ne_zero hne)
  · intro hv
    refine ⟨u, Vertex.mem_all.mpr (lt_size_of_mem_targets hv), List.mem_replicate.mpr ⟨?_, rfl⟩⟩
    exact Nat.pos_iff_ne_zero.mp (multiplicity_pos_iff.mpr hv)

theorem lt_size_of_mem_sources (hu : u ∈ g.sources v) : u < g.size :=
  lt_size_of_mem_targets (mem_sources.mp hu)

theorem length_sources (g : Digraph) (v : Vertex) : (g.sources v).length = g.inDegree v := by
  rw [sources_eq_flatMap, List.length_flatMap]
  simp only [List.length_replicate]
  rfl

theorem count_sources (g : Digraph) (u v : Vertex) :
    (g.sources v).count u = g.multiplicity u v := by
  have hcount : ∀ w, (List.replicate (g.multiplicity w v) w).count u =
      if w = u then g.multiplicity w v else 0 := fun w => by
    rw [List.count_replicate]
    simp only [beq_iff_eq]
  rw [sources_eq_flatMap, List.count_flatMap]
  simp only [Function.comp_def, hcount]
  rw [Vertex.sum_all, Finset.sum_ite_eq']
  split
  next => rfl
  next hu =>
    rw [Finset.mem_range, Nat.not_lt] at hu
    rw [multiplicity_of_le hu]

end Digraph

end LocalityOrder
