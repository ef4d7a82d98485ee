import LocalityOrder.Proofs.Renumber
import LocalityOrder.Proofs.Transpose.Exact

/-!
# The transpose of a renumbered graph

A graph that is renumbered can be transposed just as before.  The sources of a vertex are the same
vertices under their new ids, which only have to be put in ascending order again.  So the degrees
stay what they were, and under the renumbering of a layout the vertices without edges come last.
-/

namespace LocalityOrder

namespace Digraph

variable {g h : Digraph} {p : Renumbering} {settings : Settings} {v : Vertex}

/-! ## Sources under new ids -/

theorem perm_sources_of_renumber (hg : g.renumber p = .ok h) (v : Vertex) :
    (h.sources (p.toNew v)).Perm ((g.sources v).map p.toNew) := by
  apply List.perm_iff_count.mpr
  intro new
  -- every id is the new one of some old one
  rw [← p.toNew_toOld new, count_sources, multiplicity_of_renumber hg,
    List.count_map_of_injective _ _ p.toNew_injective, count_sources]

theorem sources_of_renumber (hg : g.renumber p = .ok h) (v : Vertex) :
    h.sources (p.toNew v) = ((g.sources v).map p.toNew).mergeSort := by
  apply List.Perm.eq_of_sortedLE
  · exact (Transpose.pairwise_sources h (p.toNew v)).sortedLE
  · exact List.sortedLE_mergeSort
  · exact (perm_sources_of_renumber hg v).trans (List.mergeSort_perm _ _).symm

theorem mapM_newOf_sources (hsize : p.size = g.size) (v : Vertex) :
    (g.sources v).mapM p.newOf = .ok ((g.sources v).map p.toNew) := by
  apply mapM_eq_ok
  intro u hu
  exact Renumbering.newOf_of_lt (hsize ▸ lt_size_of_mem_sources hu)

/-! ## Vertices without edges -/

theorem isIsolated_of_renumber (hg : g.renumber p = .ok h) (v : Vertex) :
    h.IsIsolated (p.toNew v) ↔ g.IsIsolated v := by
  rw [IsIsolated, IsIsolated, inDegree_of_renumber hg, outDegree_of_renumber hg]

theorem mem_isolates : v ∈ g.isolates ↔ v < g.size ∧ g.IsIsolated v := by
  simp [isolates]

-- The order of a layout has the isolated vertices at the end, and each vertex only once.
theorem isIsolated_iff_of_localityOrder (hp : g.localityOrder settings = .ok p)
    (hg : g.renumber p = .ok h) (hv : v < g.size) :
    h.IsIsolated v ↔ g.size - g.isolates.length ≤ v := by
  obtain ⟨placed, horder, hlength, hperm, -⟩ := exists_placed hp
  have hsplit := g.length_connected_add
  have hold : v < p.size := (size_of_localityOrder hp).symm ▸ hv
  have hentry : (placed ++ g.isolates)[v]? = some (p.toOld v) := by
    rw [← horder, ← Renumbering.getElem?_newToOld_of_lt hold]
    exact Array.getElem?_toList
  rw [← p.toNew_toOld v, isIsolated_of_renumber hg, p.toNew_toOld]
  by_cases hle : placed.length ≤ v
  · rw [List.getElem?_append_right hle] at hentry
    have hisolated := (mem_isolates.mp (List.mem_of_getElem? hentry)).2
    exact iff_of_true hisolated (by omega)
  · rw [List.getElem?_append_left (by omega)] at hentry
    have hnodup : (placed ++ g.isolates).Nodup := by
      rw [← horder]
      exact hperm.nodup_iff.mpr List.nodup_range
    have hmem : p.toOld v ∉ g.isolates :=
      fun hmem => (List.nodup_append.mp hnodup).2.2 _ (List.mem_of_getElem? hentry) _ hmem rfl
    have hlt : p.toOld v < g.size := size_of_localityOrder hp ▸ Renumbering.toOld_lt hold
    exact iff_of_false (fun hisolated => hmem (mem_isolates.mpr ⟨hlt, hisolated⟩)) (by omega)

end Digraph

namespace Transpose

variable {g : Digraph} {p : Renumbering} {t : Transpose}

/-- A graph with at most `2 ^ 32 - 1` edges, all of them in range, has a transpose under every
renumbering of its size, which numbers at most the `2 ^ 32` ids that have names.  It has as many
edges, and at the new id of a vertex it lists the new ids of the sources that the vertex had, each
as often as before and in ascending order.  So the degrees and with them the vertices without edges
are carried along; where the renumbering is that of a layout, these are exactly the last ids. -/
theorem ofDigraph_renumbered (hrange : g.InRange) (hcount : g.edgeCount ≤ 4294967295)
    (hp : p.size = g.size) (hnames : p.size ≤ 4294967296) :
    ∃ h t t', g.renumber p = .ok h ∧ ofDigraph g = .ok t ∧ ofDigraph h = .ok t' ∧
      t'.size = t.size ∧ t'.edgeCount = t.edgeCount ∧
      (∀ v < g.size, ∃ new sources moved, p.newOf v = .ok new ∧
        t.sourcesOf v = .ok sources ∧ sources.mapM p.newOf = .ok moved ∧
        t'.sourcesOf new = .ok moved.mergeSort ∧
        t.degree v = .ok sources.length ∧ t'.degree new = .ok sources.length ∧
        h.outDegree new = g.outDegree v ∧ (h.IsIsolated new ↔ g.IsIsolated v)) ∧
      ∀ settings q, g.localityOrder settings = .ok q → ∃ k, g.renumber q = .ok k ∧
        ∀ v < g.size, (k.IsIsolated v ↔ g.size - g.isolates.length ≤ v) := by
  obtain ⟨h, hg⟩ := Digraph.exists_renumber hrange hp
  have hsize : h.size = g.size := (Digraph.of_renumber hg).2.2.1
  have hcount' : h.edgeCount = g.edgeCount := Digraph.edgeCount_of_renumber hg
  obtain ⟨t, ht⟩ := exists_ofDigraph hrange (hp ▸ hnames) hcount
  obtain ⟨t', ht'⟩ := exists_ofDigraph (Digraph.inRange_renumber hg)
    (hsize.trans_le (hp ▸ hnames)) (hcount'.trans_le hcount)
  have hof := isOf_of_ofDigraph ht
  have hof' := isOf_of_ofDigraph ht'
  refine ⟨h, t, t', hg, ht, ht', ?_, ?_, fun v hv => ?_, fun settings q hq => ?_⟩
  · rw [(holdsBelow_of_ofDigraph ht).size_eq, (holdsBelow_of_ofDigraph ht').size_eq, hsize]
  · rw [edgeCount_of_ofDigraph ht, edgeCount_of_ofDigraph ht', hcount']
  · have hnew : p.toNew v < h.size := by
      rw [hsize, ← hp]
      exact Renumbering.toNew_lt_iff.mpr (hp ▸ hv)
    refine ⟨p.toNew v, g.sources v, (g.sources v).map p.toNew, Renumbering.newOf_of_lt (hp ▸ hv),
      hof.sourcesOf hv, Digraph.mapM_newOf_sources hp v, ?_, ?_, ?_,
      Digraph.outDegree_of_renumber hg v, Digraph.isIsolated_of_renumber hg v⟩
    · rw [hof'.sourcesOf hnew, Digraph.sources_of_renumber hg]
    · rw [hof.degree hv, g.length_sources]
    · rw [hof'.degree hnew, Digraph.inDegree_of_renumber hg, g.length_sources]
  · obtain ⟨k, hk⟩ := Digraph.exists_renumber hrange (Digraph.size_of_localityOrder hq)
    exact ⟨k, hk, fun v hv => Digraph.isIsolated_iff_of_localityOrder hq hk hv⟩

set_option maxRecDepth 100000 in
/-- Under the reversal of all ids the sources of a vertex have to be sorted again.  A layout moves
the vertex without edges from the front to the end. -/
theorem ofDigraph_renumbered_of_reversal :
    ∃ p h t', Renumbering.ofOrder [3, 2, 1, 0] = .ok p ∧
      (Digraph.ofLists [[], [3], [3, 3], []]).renumber p = .ok h ∧ ofDigraph h = .ok t' ∧
      t'.edgeCount = 3 ∧ t'.sourcesOf 0 = .ok [1, 1, 2] ∧
      ∃ q k, (Digraph.ofLists [[], [3], [3, 3], []]).localityOrder ⟨1⟩ = .ok q ∧
        (Digraph.ofLists [[], [3], [3, 3], []]).renumber q = .ok k ∧ k.IsIsolated 3 ∧
        ¬ k.IsIsolated 2 := by
  obtain ⟨x, hrun, hx⟩ := exists_eq_ok (f := id) (b := (4, 3, 0, [1, 2, 2], [2, 1, 1]))
    (x := (Renumbering.ofOrder [3, 2, 1, 0]).mapError Error.rejected >>= fun p =>
      ofDigraph (.ofLists [[], [3], [3, 3], []]) >>= fun t =>
        (p.newOf 3 >>= fun new => t.sourcesOf 3 >>= fun sources =>
          sources.mapM p.newOf >>= fun moved =>
            .ok (p.size, t.edgeCount, new, sources, moved)).mapError .fault) (by cbv)
  cases hx
  obtain ⟨p, hp, h₁⟩ := bind_eq_ok_iff.mp hrun
  obtain ⟨t, ht, h₂⟩ := bind_eq_ok_iff.mp h₁
  obtain ⟨new, hnew, h₃⟩ := bind_eq_ok_iff.mp (mapError_eq_ok_iff.mp h₂)
  obtain ⟨sources, hsources, h₄⟩ := bind_eq_ok_iff.mp h₃
  obtain ⟨moved, hmoved, h₅⟩ := bind_eq_ok_iff.mp h₄
  rw [mapError_eq_ok_iff] at hp
  have hvalues : (p.size, t.edgeCount, new, sources, moved) = (4, 3, 0, [1, 2, 2], [2, 1, 1]) :=
    Except.ok.inj h₅
  simp only [Prod.mk.injEq] at hvalues
  obtain ⟨hsize, hedges, rfl, rfl, rfl⟩ := hvalues
  obtain ⟨h, t₁, t', hg, ht₁, ht', -, hcount, hvertices, hlayouts⟩ :=
    ofDigraph_renumbered (g := .ofLists [[], [3], [3, 3], []]) (by decide) (by decide) hsize
      (hsize.trans_le (by decide))
  cases ht.symm.trans ht₁
  obtain ⟨new', sources', moved', hnew', hsources', hmoved', hsorted, -⟩ :=
    hvertices 3 (by decide)
  cases hnew.symm.trans hnew'
  cases hsources.symm.trans hsources'
  cases hmoved.symm.trans hmoved'
  obtain ⟨q, hq, -⟩ := exists_eq_ok (f := fun _ => ()) (b := ())
    (x := (Digraph.ofLists [[], [3], [3, 3], []]).localityOrder ⟨1⟩) (by cbv)
  obtain ⟨k, hk, hlast⟩ := hlayouts ⟨1⟩ q hq
  have hmerge : ([2, 1, 1] : List Vertex).mergeSort = [1, 1, 2] := by cbv
  refine ⟨p, h, t', hp, hg, ht', hcount.trans hedges, hsorted.trans ?_, q, k, hq, hk, ?_, ?_⟩
  · rw [hmerge]
  · rw [hlast 3 (by decide)]
    decide
  · rw [hlast 2 (by decide)]
    decide

end Transpose

end LocalityOrder
