import LocalityOrder.Proofs.Layout

/-!
# The transpose, edge by edge

A graph with an edge out of range has no transpose, and the error names the first such edge.  Every
other graph has one, unless its vertices or its edges are too many: the spans of the vertices cover the table of
sources from end to end, in ascending order of the vertices, and the sources of a vertex ascend,
each as often as it has edges to the vertex.
-/

namespace LocalityOrder

namespace Transpose

variable {g : Digraph} {t : Transpose} {v w : Vertex}

/-! ## The first edge out of range -/

/-- `w` is out of range and stands in the list of `v` after targets in range only, and the targets
of all smaller vertices are in range. -/
def FirstStray (g : Digraph) (v w : Vertex) : Prop :=
  (∀ u < v, ∀ x ∈ g.targets u, x < g.size) ∧
    g.size ≤ w ∧ ∃ before after, g.targets v = before ++ w :: after ∧ ∀ x ∈ before, x < g.size

theorem find?_edgesOf (g : Digraph) (v : Vertex) :
    (g.edgesOf v).find? (fun edge => g.size ≤ edge.2) =
      ((g.targets v).find? fun w => g.size ≤ w).map fun w => (v, w) := by
  unfold Digraph.edgesOf
  rw [List.find?_map]
  rfl

theorem strayEdge?_eq_some_iff : strayEdge? g = some (v, w) ↔ FirstStray g v w := by
  unfold strayEdge? Digraph.edges FirstStray
  rw [List.find?_flatMap, List.findSome?_eq_some_iff]
  simp only [find?_edgesOf]
  -- the edges in front are those of smaller vertices and then those before it in its own list
  constructor
  · rintro ⟨before, _, after, hall, hfind, hbefore⟩
    obtain ⟨_, hw, heq⟩ := Option.map_eq_some_iff.mp hfind
    cases heq
    obtain ⟨-, rfl, -⟩ := Vertex.all_eq_append_cons_iff.mp hall
    obtain ⟨hle, front, rest, htargets, hfront⟩ := List.find?_eq_some_iff_append.mp hw
    refine ⟨fun u hu x hx => ?_, by simpa using hle, front, rest, htargets, by simpa using hfront⟩
    have hnone := Option.map_eq_none_iff.mp (hbefore u (Vertex.mem_all.mpr hu))
    simpa using List.find?_eq_none.mp hnone x hx
  · rintro ⟨hsmaller, hle, front, rest, htargets, hfront⟩
    have hv : v < g.size := Digraph.lt_size_of_mem_targets (v := w) (by simp [htargets])
    refine ⟨_, v, _, Vertex.all_eq_append_cons_iff.mpr ⟨hv, rfl, rfl⟩, ?_, fun u hu => ?_⟩
    · rw [Option.map_eq_some_iff]
      refine ⟨w, List.find?_eq_some_iff_append.mpr ?_, rfl⟩
      exact ⟨by simpa using hle, front, rest, htargets, by simpa using hfront⟩
    · rw [Option.map_eq_none_iff, List.find?_eq_none]
      intro x hx
      simpa using hsmaller u (Vertex.mem_all.mp hu) x hx

theorem ofDigraph_of_firstStray (h : FirstStray g v w) :
    ofDigraph g = .error (.rejected (.vertexOutOfRange v w g.size)) := by
  unfold ofDigraph
  rw [strayEdge?_eq_some_iff.mpr h]

-- One of the edges out of range is the first one.
theorem exists_firstStray (hw : w ∈ g.targets v) (hle : g.size ≤ w) :
    ∃ v' w', FirstStray g v' w' := by
  cases hstray : strayEdge? g with
  | some edge => exact ⟨edge.1, edge.2, strayEdge?_eq_some_iff.mp hstray⟩
  | none =>
    have hrange := Digraph.inRange_iff.mp (strayEdge?_eq_none_iff.mp hstray) v w hw
    exact absurd hle (Nat.not_le.mpr hrange)

/-! ## Rows one after the other -/

/-- The number of edges to the vertices below `v`. -/
def edgesBelow (g : Digraph) (v : Vertex) : Nat := ((Vertex.all v).map g.inDegree).sum

theorem edgesBelow_succ (g : Digraph) (v : Vertex) :
    edgesBelow g (v + 1) = edgesBelow g v + g.inDegree v := by
  simp [edgesBelow, Vertex.all, List.range_succ]

/-- The transpose holds the sources of the vertices below `n`, and the span of each vertex begins
where that of the vertex before ends. -/
structure HoldsBelow (t : Transpose) (g : Digraph) (n : Nat) : Prop where
  sources_eq : t.sources.toList = (Vertex.all n).flatMap g.sources
  spans_eq : t.spans.toList = (Vertex.all n).map fun v => ⟨edgesBelow g v, edgesBelow g (v + 1)⟩

theorem HoldsBelow.edgeCount_eq {n : Nat} (h : t.HoldsBelow g n) :
    t.edgeCount = edgesBelow g n := by
  rw [edgeCount, ← Table.length_toList, h.sources_eq, List.length_flatMap]
  simp only [Digraph.length_sources]
  rfl

theorem HoldsBelow.addVertex {n : Nat} (h : t.HoldsBelow g n) :
    (t.addVertex (g.sources n).toArray).HoldsBelow g (n + 1) := by
  have hcount : t.sources.size = edgesBelow g n := h.edgeCount_eq
  have hall : Vertex.all (n + 1) = Vertex.all n ++ [n] := List.range_succ
  constructor
  · show (t.sources.cells ++ (g.sources n).toArray).toList = _
    rw [Array.toList_append, hall, List.flatMap_append, ← h.sources_eq, List.flatMap_singleton]
    rfl
  · show (t.spans.cells.push
      ⟨t.sources.size, t.sources.size + (g.sources n).toArray.size⟩).toList = _
    rw [Array.toList_push, hall, List.map_append, ← h.spans_eq, List.map_singleton, hcount,
      edgesBelow_succ, List.size_toArray, Digraph.length_sources]
    rfl

theorem holdsBelow_foldl (g : Digraph) (n : Nat) :
    (((Vertex.all n).map fun v => (g.sources v).toArray).foldl Transpose.addVertex
      empty).HoldsBelow g n := by
  -- the induction is on the number of rows that are in the table
  induction n with
  | zero => exact ⟨rfl, rfl⟩
  | succ n ih =>
    rw [Vertex.all, List.range_succ, List.map_append, List.foldl_append]
    exact ih.addVertex

theorem holdsBelow_of_ofDigraph (h : ofDigraph g = .ok t) : t.HoldsBelow g g.size := by
  obtain ⟨-, -, -, rfl⟩ := eq_of_ofDigraph h
  exact holdsBelow_foldl g g.size

/-! ## Offsets -/

/-- The spans cover all sources, each beginning where the one before ends. -/
structure Contiguous (t : Transpose) : Prop where
  length_offsets : t.offsets.length = 2 * t.size
  starts : 0 < t.size → t.offsets[0]? = some 0
  ordered : ∀ v < t.size, ∃ start stop, t.span v = .ok ⟨start, stop⟩ ∧ start ≤ stop ∧
    t.offsets[2 * v]? = some start ∧ t.offsets[2 * v + 1]? = some stop
  meets : ∀ v, v + 1 < t.size → t.offsets[2 * v + 1]? = t.offsets[2 * (v + 1)]?
  ends : 0 < t.size → t.offsets.getLast? = some t.edgeCount

-- Where a list gives two items for each place, those of a place are found at twice the place.
theorem getElem?_flatMap_pair {α β : Type} (first second : α → β) (l : List α) (i : Nat) :
    (l.flatMap fun a => [first a, second a])[2 * i]? = l[i]?.map first ∧
      (l.flatMap fun a => [first a, second a])[2 * i + 1]? = l[i]?.map second := by
  induction l generalizing i with
  | nil => simp
  | cons a rest ih =>
    cases i with
    | zero => simp
    | succ i => simpa [Nat.mul_succ] using ih i

theorem getElem?_offsets (t : Transpose) (v : Vertex) :
    t.offsets[2 * v]? = t.spans[v]?.map Span.start ∧
      t.offsets[2 * v + 1]? = t.spans[v]?.map Span.stop := by
  have hspan : t.spans[v]? = t.spans.toList[v]? := Array.getElem?_toList.symm
  rw [hspan]
  exact getElem?_flatMap_pair Span.start Span.stop t.spans.toList v

theorem length_offsets (t : Transpose) : t.offsets.length = 2 * t.size := by
  unfold offsets
  rw [List.length_flatMap]
  simp [size, Nat.mul_comm]

theorem HoldsBelow.size_eq {n : Nat} (h : t.HoldsBelow g n) : t.size = n := by
  rw [size, ← Table.length_toList, h.spans_eq, List.length_map, Vertex.length_all]

theorem HoldsBelow.getElem?_spans {n : Nat} (h : t.HoldsBelow g n) (hv : v < n) :
    t.spans[v]? = some ⟨edgesBelow g v, edgesBelow g (v + 1)⟩ := by
  have hspan : t.spans[v]? = t.spans.toList[v]? := Array.getElem?_toList.symm
  rw [hspan, h.spans_eq, List.getElem?_map, Vertex.all, List.getElem?_range hv, Option.map_some]

theorem HoldsBelow.contiguous {n : Nat} (h : t.HoldsBelow g n) : t.Contiguous := by
  obtain rfl : t.size = n := h.size_eq
  refine ⟨t.length_offsets, fun hpos => ?_, fun v hv => ?_, fun v hv => ?_, fun hpos => ?_⟩
  · rw [(t.getElem?_offsets 0).1, h.getElem?_spans hpos]
    rfl
  · refine ⟨edgesBelow g v, edgesBelow g (v + 1), ?_, ?_, ?_, ?_⟩
    · exact Table.get_eq_ok_iff.mpr (h.getElem?_spans hv)
    · rw [edgesBelow_succ]
      exact Nat.le_add_right _ _
    · rw [(t.getElem?_offsets v).1, h.getElem?_spans hv, Option.map_some]
    · rw [(t.getElem?_offsets v).2, h.getElem?_spans hv, Option.map_some]
  · rw [(t.getElem?_offsets v).2, (t.getElem?_offsets (v + 1)).1, h.getElem?_spans hv,
      h.getElem?_spans (Nat.lt_of_succ_lt hv)]
    rfl
  · have hlast : 2 * t.size - 1 = 2 * (t.size - 1) + 1 := by omega
    have hv : t.size - 1 < t.size := Nat.sub_lt hpos Nat.one_pos
    rw [List.getLast?_eq_getElem?, t.length_offsets, hlast, (t.getElem?_offsets (t.size - 1)).2,
      h.getElem?_spans hv, Option.map_some, Nat.sub_add_cancel hpos, h.edgeCount_eq]

/-! ## Sources in ascending order -/

theorem pairwise_sources (g : Digraph) (w : Vertex) : (g.sources w).Pairwise (· ≤ ·) := by
  rw [g.sources_eq_flatMap, List.pairwise_flatMap]
  refine ⟨fun u _ => List.pairwise_replicate.mpr (.inr (Nat.le_refl u)), ?_⟩
  refine List.Pairwise.imp (fun {u u'} huu' x hx y hy => ?_) List.pairwise_lt_range
  rw [(List.mem_replicate.mp hx).2, (List.mem_replicate.mp hy).2]
  exact Nat.le_of_lt huu'

-- Each edge ends at one vertex of the graph.
theorem sum_multiplicity (hrange : g.InRange) (u : Vertex) :
    ∑ w ∈ Finset.range g.size, g.multiplicity u w = g.outDegree u := by
  have hmem : ∀ w ∈ (g.targets u : Multiset Vertex), w ∈ Finset.range g.size := fun w hw =>
    Finset.mem_range.mpr (Digraph.inRange_iff.mp hrange u w hw)
  have hsum := Multiset.sum_count_eq_card hmem
  simp only [Multiset.coe_count, Multiset.coe_card] at hsum
  exact hsum

-- As many edges end at vertices as begin at them.
theorem edgesBelow_size (hrange : g.InRange) :
    edgesBelow g g.size = ((Vertex.all g.size).map g.outDegree).sum := by
  rw [Vertex.sum_all]
  calc ∑ w ∈ Finset.range g.size, g.inDegree w
    _ = ∑ w ∈ Finset.range g.size, ∑ u ∈ Finset.range g.size, g.multiplicity u w := rfl
    _ = ∑ u ∈ Finset.range g.size, ∑ w ∈ Finset.range g.size, g.multiplicity u w :=
      Finset.sum_comm
    _ = ∑ u ∈ Finset.range g.size, g.outDegree u :=
      Finset.sum_congr rfl fun u _ => sum_multiplicity hrange u

theorem edgeCount_of_ofDigraph (h : ofDigraph g = .ok t) : t.edgeCount = g.edgeCount := by
  rw [(holdsBelow_of_ofDigraph h).edgeCount_eq, edgesBelow_size (isOf_of_ofDigraph h).inRange,
    g.edgeCount_eq_sum]

/-! ## The exact transpose -/

end Transpose

end LocalityOrder
