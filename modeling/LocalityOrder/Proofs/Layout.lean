import LocalityOrder.Layout
import LocalityOrder.Proofs.Placement.Run
import LocalityOrder.Proofs.Renumbering
import Mathlib

/-!
# Layouts

A layout is a completed placement read as a renumbering.  Within explicit limits on the graph there
always is one, and its ends do not depend on the window: the first vertex is the one with the most
edges into it, and the vertices without edges come last.
-/

namespace LocalityOrder

open Placement (Holds Starts ComesFirst complete)

namespace Digraph

variable {g : Digraph} {settings : Settings} {p : Renumbering} {v : Vertex}

theorem validate_eq_ok_iff : settings.validate = .ok () ↔ 1 ≤ settings.window := by
  unfold Settings.validate
  split
  next hzero => simp [hzero]
  next hpos => simp [Nat.one_le_iff_ne_zero, hpos]

-- A layout comes from a completed placement.
theorem of_layout {l : Layout} (h : g.layout settings = .ok l) :
    ∃ t s, Transpose.ofDigraph g = .ok t ∧ 1 ≤ settings.window ∧
      complete g t settings.window = .ok s ∧ l.renumbering.newToOld.toList = s.fullOrder ∧
      l = ⟨t.edgeCount, s.order.toList, s.isolated.toList, s.first, l.renumbering⟩ := by
  obtain ⟨⟨⟩, hvalid, h₁⟩ := bind_eq_ok_iff.mp h
  obtain ⟨t, ht, h₂⟩ := bind_eq_ok_iff.mp h₁
  obtain ⟨s, hs, h₃⟩ := bind_eq_ok_iff.mp h₂
  obtain ⟨p, hp, h₄⟩ := bind_eq_ok_iff.mp h₃
  cases h₄
  rw [mapError_eq_ok_iff] at hvalid hs hp
  exact ⟨t, s, ht, validate_eq_ok_iff.mp hvalid, hs, Renumbering.toList_of_ofOrder hp, rfl⟩

theorem of_localityOrder (h : g.localityOrder settings = .ok p) :
    ∃ t s, Transpose.ofDigraph g = .ok t ∧ 1 ≤ settings.window ∧
      complete g t settings.window = .ok s ∧ p.newToOld.toList = s.fullOrder := by
  obtain ⟨l, hlayout, hp⟩ := bind_eq_ok_iff.mp h
  cases hp
  obtain ⟨t, s, ht, hw, hs, horder, -⟩ := of_layout hlayout
  exact ⟨t, s, ht, hw, hs, horder⟩

theorem exists_of_complete {t : Transpose} {s : Placement} (ht : Transpose.ofDigraph g = .ok t)
    (hw : 1 ≤ settings.window) (hs : complete g t settings.window = .ok s) :
    ∃ p, g.localityOrder settings = .ok p := by
  have hof := Transpose.isOf_of_ofDigraph ht
  obtain ⟨_, -, -, -, entered, r, hholds, hempty⟩ := Placement.Reached.of_complete hof hw hs
  have hperm : s.fullOrder.Perm (Vertex.all g.size) := by
    have hperm := hholds.perm
    rwa [hempty, List.append_nil] at hperm
  obtain ⟨p, hp⟩ := Renumbering.exists_ofOrder hperm
  refine ⟨p, ?_⟩
  unfold localityOrder layout
  rw [mapError_eq_ok_iff.mpr (validate_eq_ok_iff.mpr hw), ok_bind, ht, ok_bind,
    mapError_eq_ok_iff.mpr hs, ok_bind, mapError_eq_ok_iff.mpr hp, ok_bind]
  rfl

/-! ## Refusals -/

theorem localityOrder_of_window_eq_zero (h : settings.window = 0) :
    g.localityOrder settings = .error (.rejected .invalidWindow) := by
  have hvalid : settings.validate = .error .invalidWindow := if_pos h
  unfold localityOrder layout
  rw [hvalid]
  rfl

-- A graph without a transpose has no layout under any window.
theorem localityOrder_of_ofDigraph_eq_error {e : Error} (hw : settings.window ≠ 0)
    (h : Transpose.ofDigraph g = .error e) : g.localityOrder settings = .error e := by
  have hvalid := validate_eq_ok_iff.mpr (Nat.one_le_iff_ne_zero.mpr hw)
  unfold localityOrder layout
  rw [mapError_eq_ok_iff.mpr hvalid, ok_bind, h]
  rfl

-- A graph with its edges in range is not refused, so what goes wrong under a window is a fault.
theorem exists_fault_of_localityOrder {e : Error} (hrange : g.InRange) (hw : 1 ≤ settings.window)
    (h : g.localityOrder settings = .error e) : ∃ fault, e = .fault fault := by
  unfold localityOrder layout at h
  rw [mapError_eq_ok_iff.mpr (validate_eq_ok_iff.mpr hw), ok_bind] at h
  rcases bind_eq_error_iff.mp h with hlayout | ⟨l, -, hpure⟩
  · rcases bind_eq_error_iff.mp hlayout with ht | ⟨t, -, h₁⟩
    · exact Transpose.exists_fault_of_ofDigraph hrange ht
    · rcases bind_eq_error_iff.mp h₁ with hs | ⟨s, -, h₂⟩
      · obtain ⟨fault, -, rfl⟩ := mapError_eq_error_iff.mp hs
        exact ⟨fault, rfl⟩
      · rcases bind_eq_error_iff.mp h₂ with hp | ⟨p, -, hpure⟩
        · obtain ⟨rejection, -, rfl⟩ := mapError_eq_error_iff.mp hp
          exact ⟨_, rfl⟩
        · cases hpure
  · cases hpure

/-! ## Success within the limits -/

theorem traffic_eq_zero (hrange : g.InRange) (hv : g.size ≤ v) : g.traffic v = 0 := by
  unfold traffic
  rw [inDegree_eq_zero hrange hv, outDegree, targets_of_le hv, List.length_nil, Vertex.sum_all,
    Nat.zero_add]
  apply Finset.sum_eq_zero
  intro u _
  rw [multiplicity_eq_zero hrange hv, Nat.zero_mul]

theorem exists_localityOrder (hsize : g.size < 4294967294) (hcount : g.edgeCount ≤ 4294967295)
    (hrange : g.InRange) (htraffic : ∀ v, g.traffic v < 1073741824)
    (hwindow : 1 ≤ settings.window) : ∃ p, g.localityOrder settings = .ok p := by
  have hnames : g.size ≤ Vertex.largest + 1 := hsize.le.trans (by decide)
  obtain ⟨t, ht⟩ := Transpose.exists_ofDigraph hrange hnames hcount
  obtain ⟨s, hs⟩ :=
    Placement.exists_complete (Transpose.isOf_of_ofDigraph ht) hwindow hsize htraffic
  exact exists_of_complete ht hwindow hs

/-- A graph with fewer than `2 ^ 32 - 2` vertices and `2 ^ 32` edges, all of them in range, and with
traffic below `2 ^ 30` at every vertex is laid out under every window: no score overflows, neither
that of a vertex in the queue nor the mark of a placed one, and no other fault comes up. -/
theorem localityOrder_succeeds (hsize : g.size < 4294967294) (hcount : g.edgeCount ≤ 4294967295)
    (hrange : g.InRange) (htraffic : ∀ v, v < g.size → g.traffic v < 1073741824)
    (hwindow : 1 ≤ settings.window) : ∃ p, g.localityOrder settings = .ok p := by
  refine exists_localityOrder hsize hcount hrange (fun v => ?_) hwindow
  by_cases hv : v < g.size
  · exact htraffic v hv
  · rw [traffic_eq_zero hrange (Nat.not_lt.mp hv)]
    decide

/-- A graph with a loop, a repeated edge and a vertex without edges is laid out. -/
theorem localityOrder_succeeds_of_loop_and_repetition :
    ∃ p, (ofLists [[0, 1, 1], [2], [], []]).localityOrder ⟨2⟩ = .ok p :=
  localityOrder_succeeds (by decide) (by decide) (by decide) (by decide) (by decide)

/-! ## The arrangement -/

/-- The vertices that are the end of some edge. -/
def connected (g : Digraph) : List Vertex := (Vertex.all g.size).filter (¬ g.IsIsolated ·)

/-- The vertices without edges, ascending. -/
def isolates (g : Digraph) : List Vertex := (Vertex.all g.size).filter (g.IsIsolated ·)

theorem length_connected_add (g : Digraph) :
    g.connected.length + g.isolates.length = g.size := by
  have hlength := List.length_eq_length_filter_add (l := Vertex.all g.size)
    (fun v => decide (g.IsIsolated v))
  rw [Vertex.length_all] at hlength
  unfold connected isolates
  simp only [decide_not]
  omega

-- once the queue is empty, all connected vertices have been placed
theorem length_order_of_empty {window : Nat} {entered : List Vertex} {s : Placement}
    {r : RankedList} (h : Holds g window entered s r) (hempty : r.order = []) :
    s.order.toList.length = g.connected.length := by
  have hisolates : s.isolated.toList = g.isolates := h.isolated
  have hlength := h.length
  have hsplit := g.length_connected_add
  rw [hempty, List.length_nil, ← Array.length_toList, ← Array.length_toList, hisolates] at hlength
  omega

-- The connected vertices are placed, beginning with the one that comes first, and the isolated
-- ones follow.
theorem exists_placed (h : g.localityOrder settings = .ok p) :
    ∃ placed, p.newToOld.toList = placed ++ g.isolates ∧ placed.length = g.connected.length ∧
      p.newToOld.toList.Perm (Vertex.all g.size) ∧
      (placed = [] ∨ ∃ v rest, placed = v :: rest ∧ ComesFirst g g.connected v) := by
  obtain ⟨t, s, ht, hw, hs, horder⟩ := of_localityOrder h
  have hof := Transpose.isOf_of_ofDigraph ht
  obtain ⟨s₀, -, hstarts, hprefix, entered, r, hholds, hempty⟩ :=
    Placement.Reached.of_complete hof hw hs
  have hisolates : s.isolated.toList = g.isolates := hholds.isolated
  have hplaced := length_order_of_empty hholds hempty
  refine ⟨s.order.toList, ?_, hplaced, ?_, ?_⟩
  · rw [horder, Placement.fullOrder, hisolates]
  · have hperm := hholds.perm
    rwa [hempty, List.append_nil, ← Placement.fullOrder, ← horder] at hperm
  · rcases hstarts with ⟨-, hall⟩ | ⟨v, hfirst, hcomes⟩
    · left
      refine List.eq_nil_of_length_eq_zero (hplaced.trans ?_)
      refine List.length_eq_zero_iff.mpr (List.filter_eq_nil_iff.mpr fun v hv => ?_)
      simpa using hall v (Vertex.mem_all.mp hv)
    · right
      rw [hfirst] at hprefix
      obtain ⟨rest, hrest⟩ := hprefix
      exact ⟨v, rest, hrest.symm, hcomes⟩

theorem size_of_localityOrder (h : g.localityOrder settings = .ok p) : p.size = g.size := by
  obtain ⟨placed, -, -, hperm, -⟩ := exists_placed h
  have hlength := hperm.length_eq
  rwa [Vertex.length_all] at hlength

/-- Every layout lists each vertex once, with the isolated ones last and in ascending order, and it
begins with the smallest of the vertices that have the largest in-degree.  Another window, or any
other setting, changes only what lies between. -/
theorem localityOrder_arrangement (h : g.localityOrder settings = .ok p) :
    p.size = g.size ∧ p.newToOld.toList.Perm (Vertex.all g.size) ∧
      (∀ new old : Vertex, p.newToOld[new]? = some old ↔ p.oldToNew[old]? = some new) ∧
      p.newToOld.toList.drop g.connected.length = g.isolates ∧
      (0 < g.connected.length → ∃ v, p.newToOld[0]? = some v ∧ ComesFirst g g.connected v) ∧
      ∀ settings' p', g.localityOrder settings' = .ok p' →
        ∀ i, i = 0 ∨ g.connected.length ≤ i → p'.newToOld[i]? = p.newToOld[i]? := by
  have hat : ∀ (p : Renumbering) (i : Nat), p.newToOld[i]? = p.newToOld.toList[i]? := fun p i =>
    Array.getElem?_toList.symm
  obtain ⟨placed, horder, hlength, hperm, hfirst⟩ := exists_placed h
  refine ⟨?_, hperm, fun new old => ⟨p.oldToNew_of_newToOld, p.newToOld_of_oldToNew⟩, ?_,
    fun hpos => ?_, fun settings' p' h' i hi => ?_⟩
  · have hsize := hperm.length_eq
    rwa [Vertex.length_all, Table.length_toList] at hsize
  · rw [horder, ← hlength, List.drop_left]
  · rcases hfirst with rfl | ⟨v, rest, rfl, hcomes⟩
    · rw [← hlength] at hpos
      exact absurd hpos (Nat.lt_irrefl 0)
    · exact ⟨v, by rw [hat, horder]; rfl, hcomes⟩
  · obtain ⟨placed', horder', hlength', -, hfirst'⟩ := exists_placed h'
    rw [hat, hat, horder, horder']
    -- in the tail both list the isolated vertices, and in front both begin with the same vertex
    by_cases hle : g.connected.length ≤ i
    · rw [List.getElem?_append_right (by omega), List.getElem?_append_right (by omega), hlength,
        hlength']
    · obtain rfl : i = 0 := by omega
      rcases hfirst with rfl | ⟨v, rest, rfl, hcomes⟩
      · rw [← hlength, List.length_nil] at hle
        exact absurd (Nat.le_refl 0) hle
      · rcases hfirst' with rfl | ⟨v', rest', rfl, hcomes'⟩
        · rw [← hlength', List.length_nil] at hle
          exact absurd (Nat.le_refl 0) hle
        · rw [hcomes.unique hcomes']
          rfl

set_option maxRecDepth 100000 in
/-- A vertex without edges does not come first, even if it is the smallest. -/
theorem localityOrder_arrangement_of_isolated_first :
    ∃ p, (ofLists [[], [2], [1, 2], []]).localityOrder ⟨1⟩ = .ok p ∧
      p.newToOld.toList = [2, 1, 0, 3] ∧ p.size = 4 ∧ p.newToOld.toList.drop 2 = [0, 3] ∧
      ComesFirst (ofLists [[], [2], [1, 2], []]) [1, 2] 2 := by
  obtain ⟨p, hp, horder⟩ := exists_eq_ok (b := [2, 1, 0, 3]) (f := fun p => p.newToOld.toList)
    (x := (ofLists [[], [2], [1, 2], []]).localityOrder ⟨1⟩) (by cbv)
  obtain ⟨hsize, -, -, hdrop, hfirst, -⟩ := localityOrder_arrangement hp
  obtain ⟨v, hv, hcomes⟩ := hfirst (by decide)
  have hzero : p.newToOld.toList[0]? = some v := hv ▸ Array.getElem?_toList
  rw [horder] at hzero
  cases hzero
  exact ⟨p, hp, horder, hsize, hdrop, hcomes⟩

end Digraph

end LocalityOrder
