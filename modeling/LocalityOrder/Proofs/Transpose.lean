import LocalityOrder.Proofs.Digraph
import LocalityOrder.Proofs.Table
import LocalityOrder.Transpose

/-!
# The transpose of a graph

Where a graph has a transpose, its vertices have names, its edges lead to its vertices and are not
too many, and the transpose holds the sources of each vertex in the order of the edges.  A graph
without a transpose violates one of the three.
-/

namespace LocalityOrder

/-! ## Names of ids -/

namespace Vertex

-- Of all vertices in ascending order, those in front of `v` are those below it.
theorem all_eq_append_cons_iff {n : Nat} {v : Vertex} {before after : List Vertex} :
    Vertex.all n = before ++ v :: after ↔
      v < n ∧ before = Vertex.all v ∧ after = List.range' (v + 1) (n - v - 1) := by
  unfold Vertex.all
  rw [List.range_eq_range', List.range_eq_range', List.range'_eq_append_iff]
  constructor
  · rintro ⟨k, hk, rfl, hrest⟩
    obtain ⟨hstart, hpos, rfl⟩ := List.range'_eq_cons_iff.mp hrest.symm
    obtain rfl : v = k := by rw [← hstart, Nat.zero_add, Nat.mul_one]
    exact ⟨Nat.lt_of_sub_pos hpos, rfl, rfl⟩
  · rintro ⟨hv, rfl, rfl⟩
    refine ⟨v, Nat.le_of_lt hv, rfl, ?_⟩
    rw [eq_comm, List.range'_eq_cons_iff]
    exact ⟨by rw [Nat.zero_add, Nat.mul_one], Nat.sub_pos_of_lt hv, rfl⟩

theorem ofIndex_of_le {v : Vertex} (h : v ≤ largest) : ofIndex v = .ok v := if_pos h

-- As many vertices can be named as there are names.
theorem named_of_le {n : Nat} (h : n ≤ largest + 1) : named n = .ok (all n) := by
  have hnamed : ∀ v ∈ all n, ofIndex v = .ok (id v) := fun v hv =>
    ofIndex_of_le (Nat.le_of_lt_succ (Nat.lt_of_lt_of_le (mem_all.mp hv) h))
  rw [named, mapM_eq_ok hnamed, List.map_id]

-- The vertex after the last one that has a name cannot be named.
theorem named_of_lt {n : Nat} (h : largest + 1 < n) :
    named n = .error (.idTooLarge (largest + 1)) := by
  rw [named, all_eq_append_cons_iff.mpr ⟨h, rfl, rfl⟩]
  apply mapM_eq_error_of_append
  · intro v hv
    exact ⟨v, ofIndex_of_le (Nat.le_of_lt_succ (mem_all.mp hv))⟩
  · exact if_neg (Nat.not_le.mpr (Nat.lt_succ_self largest))

theorem le_of_named {n : Nat} {ids : List Vertex} (h : named n = .ok ids) :
    n ≤ largest + 1 ∧ ids = all n := by
  have hle : n ≤ largest + 1 := Nat.le_of_not_lt fun hlt => by
    rw [named_of_lt hlt] at h
    cases h
  rw [named_of_le hle] at h
  cases h
  exact ⟨hle, rfl⟩

end Vertex

namespace Transpose

variable {g : Digraph} {t t' : Transpose} {v : Vertex}

/-! ## Spans -/

/-- The transpose holds the given rows, one for each vertex. -/
def HoldsRows (t : Transpose) (rows : List (Array Vertex)) : Prop :=
  t.spans.size = rows.length ∧ ∀ (v : Nat) row, rows[v]? = some row →
    ∃ start, t.spans[v]? = some (Span.mk start (start + row.size)) ∧
      start + row.size ≤ t.sources.size ∧
      t.sources.cells.extract start (start + row.size) = row

theorem HoldsRows.addVertex {rows : List (Array Vertex)} (h : t.HoldsRows rows)
    (row : Array Vertex) : (t.addVertex row).HoldsRows (rows ++ [row]) := by
  obtain ⟨hsize, hrows⟩ := h
  have hspans : t.spans.cells.size = rows.length := hsize
  refine ⟨?_, fun v row' hrow' => ?_⟩
  · simp only [Transpose.addVertex, Table.size, Array.size_push, List.length_append,
      List.length_singleton, hspans]
  · rw [List.getElem?_append] at hrow'
    split at hrow'
    next hv =>
      obtain ⟨start, hspan, hle, hextract⟩ := hrows v row' hrow'
      refine ⟨start, ?_, ?_, ?_⟩
      · rw [Table.getElem?_eq] at hspan ⊢
        simp only [Transpose.addVertex, Array.getElem?_push, hspans]
        rw [if_neg (Nat.ne_of_lt hv), hspan]
      · simp only [Transpose.addVertex, Table.size, Array.size_append] at hle ⊢
        omega
      · have hle' : start + row'.size ≤ t.sources.cells.size := hle
        simp only [Transpose.addVertex, Array.extract_append, hextract]
        rw [show start + row'.size - t.sources.cells.size = 0 by omega, Array.extract_zero,
          Array.append_empty]
    next hv =>
      rw [List.getElem?_singleton] at hrow'
      split at hrow'
      next hv' =>
        cases hrow'
        have hlast : v = rows.length := by omega
        refine ⟨t.sources.size, ?_, ?_, ?_⟩
        · simp only [Transpose.addVertex, Table.getElem?_eq, Array.getElem?_push, hspans]
          rw [if_pos hlast]
        · simp only [Transpose.addVertex, Table.size, Array.size_append]
          omega
        · simp [Transpose.addVertex, Table.size]
      next => cases hrow'

theorem holdsRows_foldl (rows : List (Array Vertex)) :
    (rows.foldl addVertex empty).HoldsRows rows := by
  -- the induction is on the rows still to come, after any rows that the table holds
  have hall : ∀ before after : List (Array Vertex), ∀ t : Transpose, t.HoldsRows before →
      (after.foldl addVertex t).HoldsRows (before ++ after) := by
    intro before after
    induction after generalizing before with
    | nil =>
      intro t ht
      rwa [List.append_nil]
    | cons row rest ih =>
      intro t ht
      have := ih (before ++ [row]) _ (ht.addVertex row)
      rwa [List.append_assoc] at this
  exact hall [] rows empty ⟨rfl, fun v row h => by cases h⟩

/-! ## The transpose -/

/-- The vertices of the graph have names, it has at most as many edges as are allowed, all of them
in range, and the transpose holds the sources of each vertex. -/
structure IsOf (t : Transpose) (g : Digraph) : Prop where
  inRange : g.InRange
  size_le : g.size ≤ Vertex.largest + 1
  edgeCount_le : g.edgeCount ≤ mostEdges
  sourcesOf : ∀ {v : Vertex}, v < g.size → t.sourcesOf v = .ok (g.sources v)
  degree : ∀ {v : Vertex}, v < g.size → t.degree v = .ok (g.inDegree v)

theorem strayEdge?_eq_none_iff : strayEdge? g = none ↔ g.InRange := by
  unfold strayEdge? Digraph.InRange
  rw [List.find?_eq_none]
  simp only [decide_eq_true_eq, Nat.not_le]

-- The row of a vertex has a source for each of its edges, in the order of the edges.
theorem toList_rows {rows : Table (Array Vertex)}
    (h : Transpose.rows g.size g.edges = .ok rows) :
    rows.cells.toList = (Vertex.all g.size).map fun v => (g.sources v).toArray := by
  apply List.ext_getElem?
  intro v
  have hrow := (Table.of_foldlM_push h).2 v
  rw [Table.getElem?_filled] at hrow
  rw [Array.getElem?_toList, ← Table.getElem?_eq, hrow, List.getElem?_map, Vertex.all]
  by_cases hv : v < g.size
  · rw [if_pos hv, List.getElem?_range hv]
    simp [Digraph.sources]
  · rw [if_neg hv, List.getElem?_eq_none (by simpa using hv)]
    rfl

-- The transpose is made of the sources of one vertex after the other.
theorem eq_of_ofDigraph (h : ofDigraph g = .ok t) :
    g.InRange ∧ g.size ≤ Vertex.largest + 1 ∧ g.edgeCount ≤ mostEdges ∧
      t = ((Vertex.all g.size).map fun v => (g.sources v).toArray).foldl addVertex empty := by
  unfold ofDigraph at h
  split at h
  next => cases h
  next hstray =>
    obtain ⟨vertices, hnamed, h₁⟩ := bind_eq_ok_iff.mp h
    obtain ⟨rows, hrows, h₂⟩ := bind_eq_ok_iff.mp h₁
    rw [mapError_eq_ok_iff] at hnamed hrows
    obtain ⟨hsize, rfl⟩ := Vertex.le_of_named hnamed
    split at h₂
    next => cases h₂
    next hcount =>
      cases h₂
      refine ⟨strayEdge?_eq_none_iff.mp hstray, hsize, ?_, ?_⟩
      · rw [← g.length_edges]
        exact Nat.le_of_not_lt hcount
      · rw [← Array.foldl_toList, toList_rows hrows]

theorem isOf_of_ofDigraph (h : ofDigraph g = .ok t) : t.IsOf g := by
  obtain ⟨hrange, hsize, hcount, rfl⟩ := eq_of_ofDigraph h
  have hrow : ∀ v : Vertex, v < g.size →
      ((Vertex.all g.size).map fun v => (g.sources v).toArray)[v]? =
        some (g.sources v).toArray := fun v hv => by
    rw [List.getElem?_map, Vertex.all, List.getElem?_range hv, Option.map_some]
  have hholds := (holdsRows_foldl ((Vertex.all g.size).map fun v => (g.sources v).toArray)).2
  refine ⟨hrange, hsize, hcount, fun {v} hv => ?_, fun {v} hv => ?_⟩
  · obtain ⟨start, hspan, hle, hextract⟩ := hholds v _ (hrow v hv)
    rw [Transpose.sourcesOf, span, Table.get_eq_ok_iff.mpr hspan, ok_bind, Table.slice,
      if_pos ⟨Nat.le_add_right _ _, hle⟩, hextract]
  · obtain ⟨start, hspan, -, -⟩ := hholds v _ (hrow v hv)
    rw [degree, span, Table.get_eq_ok_iff.mpr hspan, ok_bind, pure_eq_ok, ← g.length_sources]
    simp

theorem exists_ofDigraph (hrange : g.InRange) (hsize : g.size ≤ Vertex.largest + 1)
    (hcount : g.edgeCount ≤ mostEdges) : ∃ t, ofDigraph g = .ok t := by
  have hlt : ∀ edge ∈ g.edges, edge.2 < (Table.filled g.size (#[] : Array Vertex)).size := by
    rw [Table.size_filled]
    exact hrange
  obtain ⟨rows, hrows⟩ := Table.exists_foldlM_push hlt
  unfold ofDigraph
  rw [strayEdge?_eq_none_iff.mpr hrange]
  dsimp only
  have hedges : (Vertex.all g.size).flatMap g.edgesOf = g.edges := rfl
  rw [mapError_eq_ok_iff.mpr (Vertex.named_of_le hsize), ok_bind, hedges, Transpose.rows,
    mapError_eq_ok_iff.mpr hrows, ok_bind, if_neg (by rw [g.length_edges]; omega)]
  exact ⟨_, rfl⟩

-- Where all edges are in range, names are given out before anything else is done.
theorem ofDigraph_of_size_lt (hrange : g.InRange) (hsize : Vertex.largest + 1 < g.size) :
    ofDigraph g = .error (.fault (.idTooLarge (Vertex.largest + 1))) := by
  unfold ofDigraph
  rw [strayEdge?_eq_none_iff.mpr hrange]
  dsimp only
  rw [Vertex.named_of_lt hsize]
  rfl

-- Where all edges are in range, only the number of vertices or edges can be wrong.
theorem exists_fault_of_ofDigraph {e : Error} (hrange : g.InRange) (h : ofDigraph g = .error e) :
    ∃ fault, e = .fault fault := by
  unfold ofDigraph at h
  rw [strayEdge?_eq_none_iff.mpr hrange] at h
  rcases bind_eq_error_iff.mp h with hnamed | ⟨vertices, -, h₁⟩
  · obtain ⟨fault, -, rfl⟩ := mapError_eq_error_iff.mp hnamed
    exact ⟨fault, rfl⟩
  · rcases bind_eq_error_iff.mp h₁ with hrows | ⟨rows, -, h₂⟩
    · obtain ⟨fault, -, rfl⟩ := mapError_eq_error_iff.mp hrows
      exact ⟨fault, rfl⟩
    · split at h₂
      · cases h₂
        exact ⟨_, rfl⟩
      · cases h₂

end Transpose

end LocalityOrder
