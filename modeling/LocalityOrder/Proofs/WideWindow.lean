import LocalityOrder.Proofs.NearGreedy

/-!
# Windows that no vertex leaves

In a window as wide as the graph the scores only grow, so a score can be below its peak only because
it has not reached the in-degree that the vertex began with.  A layout is then greedy but for the
vertices whose score is below their in-degree.

A window is read only to find the vertex that leaves it.  When the last connected vertex is chosen,
all the others have entered, and the vertices without edges never enter.  So all windows that hold
the connected vertices but one lead to the same outcome.
-/

namespace LocalityOrder

namespace Digraph

variable {g : Digraph} {settings : Settings} {p : Renumbering} {v w : Vertex} {window : Nat}
  {entered : List Vertex}

theorem windowAffinity_take_le (g : Digraph) (entered : List Vertex) (t : Nat) (v : Vertex) :
    g.windowAffinity (entered.take t) v ≤ g.windowAffinity entered v := by
  have hsplit : entered = entered.take t ++ entered.drop t := (List.take_append_drop t _).symm
  calc g.windowAffinity (entered.take t) v
      ≤ g.windowAffinity (entered.take t) v + g.windowAffinity (entered.drop t) v :=
        Nat.le_add_right _ _
    _ = g.windowAffinity (entered.take t ++ entered.drop t) v := (windowAffinity_append ..).symm
    _ = g.windowAffinity entered v := by rw [← hsplit]

-- Where nothing has left the window, the peak is the in-degree or the score itself.
theorem peak_le_of_length_le (hlength : entered.length ≤ window) (v : Vertex) :
    g.peak window entered v ≤ max (g.inDegree v) (g.windowAffinity entered v) := by
  refine Nat.max_le.mpr ⟨Nat.le_max_left _ _, Finset.sup_le fun t _ => ?_⟩
  have htake : (entered.take t).length ≤ window + 1 :=
    Nat.le_succ_of_le ((List.length_take_le' t entered).trans hlength)
  rw [rtake_of_length_le htake]
  exact (g.windowAffinity_take_le entered t v).trans (Nat.le_max_right _ _)

-- What lies behind the connected vertices is isolated.
theorem lt_length_connected (h : g.localityOrder settings = .ok p) {j : Nat}
    (hw : p.newToOld.toList[j]? = some w) (hedge : ¬ g.IsIsolated w) :
    j < g.connected.length := by
  obtain ⟨placed, horder, hlength, -, -⟩ := exists_placed h
  apply Nat.lt_of_not_le
  intro hle
  rw [horder, List.getElem?_append_right (by omega)] at hw
  have hmem : w ∈ g.isolates := List.mem_of_getElem? hw
  exact hedge (by simpa using (List.mem_filter.mp hmem).2)

/-- In a window as wide as the graph, a vertex comes before a better one only while its own score is
below its in-degree, and the better score is then at most halfway between the two. -/
theorem localityOrder_greedy (hnodup : ∀ u, u < g.size → (g.targets u).Nodup)
    (hwindow : g.size ≤ settings.window) (h : g.localityOrder settings = .ok p) {i j : Nat}
    (hi : 1 ≤ i) (hij : i < j) (hv : p.newToOld[i]? = some v) (hw : p.newToOld[j]? = some w)
    (hedge : ¬ g.IsIsolated w) :
    g.windowAffinity (p.newToOld.toList.take i) w ≤
        g.windowAffinity (p.newToOld.toList.take i) v ∨
      g.windowAffinity (p.newToOld.toList.take i) v < g.inDegree v ∧
        2 * g.windowAffinity (p.newToOld.toList.take i) w ≤
          g.windowAffinity (p.newToOld.toList.take i) v + g.inDegree v := by
  rw [show p.newToOld[i]? = p.newToOld.toList[i]? from Array.getElem?_toList.symm] at hv
  rw [show p.newToOld[j]? = p.newToOld.toList[j]? from Array.getElem?_toList.symm] at hw
  obtain ⟨-, -, -, hperm, -⟩ := exists_placed h
  have hsize : p.newToOld.toList.length = g.size := by rw [hperm.length_eq, Vertex.length_all]
  have hlength : (p.newToOld.toList.take i).length ≤ settings.window := by
    rw [List.length_take, hsize]
    omega
  have hhalf := two_mul_windowAffinity_le hnodup h hi hij (lt_length_connected h hw hedge) hv hw
  have hpeak := peak_le_of_length_le (g := g) hlength v
  rw [rtake_of_length_le hlength] at hhalf
  omega

set_option maxRecDepth 100000 in
/-- After vertex 0, vertex 2 comes before vertex 1 although it is farther away: half of the two
edges into it still count. -/
theorem localityOrder_not_greedy :
    ∃ p, (∀ u, u < (ofLists [[0], [0], [1, 2], [2]]).size →
        ((ofLists [[0], [0], [1, 2], [2]]).targets u).Nodup) ∧
      (ofLists [[0], [0], [1, 2], [2]]).InRange ∧ (ofLists [[0], [0], [1, 2], [2]]).size ≤ 4 ∧
      (ofLists [[0], [0], [1, 2], [2]]).localityOrder ⟨4⟩ = .ok p ∧
      p.newToOld[1]? = some 2 ∧ p.newToOld[2]? = some 1 ∧
      ¬ (ofLists [[0], [0], [1, 2], [2]]).IsIsolated 2 ∧
      ¬ (ofLists [[0], [0], [1, 2], [2]]).IsIsolated 1 ∧
      ¬ (ofLists [[0], [0], [1, 2], [2]]).windowAffinity (p.newToOld.toList.take 1) 1 ≤
        (ofLists [[0], [0], [1, 2], [2]]).windowAffinity (p.newToOld.toList.take 1) 2 := by
  obtain ⟨p, hp, horder⟩ := exists_eq_ok (b := [0, 2, 1, 3]) (f := fun p => p.newToOld.toList)
    (x := (ofLists [[0], [0], [1, 2], [2]]).localityOrder ⟨4⟩) (by cbv)
  have hat : ∀ i : Nat, p.newToOld[i]? = [0, 2, 1, 3][i]? := fun i =>
    horder ▸ Array.getElem?_toList.symm
  refine ⟨p, by decide, by decide, by decide, hp, hat 1, hat 2, by decide, by decide, ?_⟩
  rw [horder]
  decide

set_option maxRecDepth 100000 in
/-- Vertex 2 has two edges into it and no score yet, and vertex 1 has a score of one. -/
theorem localityOrder_greedy_of_overtaking :
    ∃ p, (ofLists [[0], [0], [1, 2], [2]]).localityOrder ⟨4⟩ = .ok p ∧
      p.newToOld.toList = [0, 2, 1, 3] ∧
      ((ofLists [[0], [0], [1, 2], [2]]).windowAffinity (p.newToOld.toList.take 1) 1 ≤
          (ofLists [[0], [0], [1, 2], [2]]).windowAffinity (p.newToOld.toList.take 1) 2 ∨
        (ofLists [[0], [0], [1, 2], [2]]).windowAffinity (p.newToOld.toList.take 1) 2 <
            (ofLists [[0], [0], [1, 2], [2]]).inDegree 2 ∧
          2 * (ofLists [[0], [0], [1, 2], [2]]).windowAffinity (p.newToOld.toList.take 1) 1 ≤
            (ofLists [[0], [0], [1, 2], [2]]).windowAffinity (p.newToOld.toList.take 1) 2 +
              (ofLists [[0], [0], [1, 2], [2]]).inDegree 2) := by
  obtain ⟨p, hp, horder⟩ := exists_eq_ok (b := [0, 2, 1, 3]) (f := fun p => p.newToOld.toList)
    (x := (ofLists [[0], [0], [1, 2], [2]]).localityOrder ⟨4⟩) (by cbv)
  have hat : ∀ i : Nat, p.newToOld[i]? = [0, 2, 1, 3][i]? := fun i =>
    horder ▸ Array.getElem?_toList.symm
  exact ⟨p, hp, horder, localityOrder_greedy (by decide) (by decide) hp (by decide)
    (by decide : 1 < 2) (hat 1) (hat 2) (by decide)⟩

end Digraph

/-! ## One outcome for all of them -/

namespace Placement

variable {g : Digraph} {t : Transpose} {s s' : Placement} {window window' count : Nat}

theorem leaving_eq_none (h : s.order.size ≤ window) : s.leaving window = none :=
  if_neg (Nat.not_lt.mpr h)

theorem order_of_slide (h : s.slide g t window = .ok s') : s'.order = s.order := by
  unfold Placement.slide at h
  split at h
  next =>
    cases h
    rfl
  next =>
    obtain ⟨scores, -, hpure⟩ := bind_eq_ok_iff.mp h
    cases hpure
    rfl

theorem size_order_of_placeBest (h : s.placeBest = .ok s') : s'.order.size = s.order.size + 1 := by
  obtain ⟨x, -, hplace⟩ := bind_eq_ok_iff.mp h
  obtain ⟨scores, -, hpure⟩ := bind_eq_ok_iff.mp hplace
  cases hpure
  exact Array.size_push _

-- A step is the same under two windows if all vertices placed before it fit in both.
theorem slide_eq_of_le (h : s.order.size ≤ window) (h' : s.order.size ≤ window') :
    s.slide g t window = s.slide g t window' := by
  unfold Placement.slide
  rw [leaving_eq_none h, leaving_eq_none h']

-- The vertex placed last need not fit, as no step follows it.
theorem advance_eq_of_le (h : s.order.size + count ≤ window + 1)
    (h' : s.order.size + count ≤ window' + 1) :
    s.advance g t window count = s.advance g t window' count := by
  induction count generalizing s with
  | zero => rfl
  | succ count ih =>
    rw [advance, advance, slide_eq_of_le (by omega) (by omega : s.order.size ≤ window')]
    apply bind_congr_of_eq_ok
    intro s₁ hslide
    apply bind_congr_of_eq_ok
    intro s₂ hplace
    have hsize : s₂.order.size = s.order.size + 1 := by
      rw [size_order_of_placeBest hplace, order_of_slide hslide]
    exact ih (by omega) (by omega)

-- As many vertices are placed as there are connected ones.
theorem size_order_add_rest (ht : t.IsOf g) (hs : start g t = .ok s) :
    s.order.size + (g.size - s.isolated.size - s.order.size) = g.connected.length := by
  obtain ⟨-, r, hholds⟩ := of_start ht hs
  have hlength := (hholds 0).length
  have hisolated : s.isolated.toList = g.isolates := (hholds 0).isolated
  have hsize : s.isolated.size = g.isolates.length := by rw [← hisolated, Array.length_toList]
  have hsplit := g.length_connected_add
  omega

theorem complete_eq_of_le (ht : t.IsOf g) (h : g.connected.length ≤ window + 1)
    (h' : g.connected.length ≤ window' + 1) : complete g t window = complete g t window' := by
  apply bind_congr_of_eq_ok
  intro s hs
  have hcount := size_order_add_rest ht hs
  exact advance_eq_of_le (by omega) (by omega)

end Placement

namespace Digraph

open Placement (complete_eq_of_le)

variable {g : Digraph} {settings settings' : Settings}

theorem layout_eq_of_wide (h : max 1 (g.connected.length - 1) ≤ settings.window)
    (h' : max 1 (g.connected.length - 1) ≤ settings'.window) :
    g.layout settings = g.layout settings' := by
  obtain ⟨hpos, hwide⟩ := Nat.max_le.mp h
  obtain ⟨hpos', hwide'⟩ := Nat.max_le.mp h'
  unfold layout
  rw [validate_eq_ok_iff.mpr hpos, validate_eq_ok_iff.mpr hpos']
  apply bind_congr
  intro _
  apply bind_congr_of_eq_ok
  intro t ht
  rw [complete_eq_of_le (Transpose.isOf_of_ofDigraph ht) (Nat.sub_le_iff_le_add.mp hwide)
    (Nat.sub_le_iff_le_add.mp hwide')]

/-- Two windows that hold all connected vertices but one lead to the same order or to the same
error, however wide they are. -/
theorem localityOrder_eq_of_wide (h : max 1 (g.connected.length - 1) ≤ settings.window)
    (h' : max 1 (g.connected.length - 1) ≤ settings'.window) :
    g.localityOrder settings = g.localityOrder settings' := by
  unfold localityOrder
  rw [layout_eq_of_wide h h']

set_option maxRecDepth 100000 in
/-- Of five vertices four are connected, so a window of three is as good as the widest.  In a window
of one, vertices leave and the order is another. -/
theorem localityOrder_eq_of_wide_of_isolated :
    ∃ p p', (ofLists [[1, 2, 3], [0, 1], [], [], []]).localityOrder ⟨1⟩ = .ok p ∧
      p.newToOld.toList = [1, 0, 3, 2, 4] ∧
      (ofLists [[1, 2, 3], [0, 1], [], [], []]).localityOrder ⟨3⟩ = .ok p' ∧
      (ofLists [[1, 2, 3], [0, 1], [], [], []]).localityOrder ⟨18446744073709551615⟩ = .ok p' ∧
      p'.newToOld.toList = [1, 0, 2, 3, 4] := by
  obtain ⟨p, hp, horder⟩ := exists_eq_ok (b := [1, 0, 3, 2, 4]) (f := fun p => p.newToOld.toList)
    (x := (ofLists [[1, 2, 3], [0, 1], [], [], []]).localityOrder ⟨1⟩) (by cbv)
  obtain ⟨p', hp', horder'⟩ := exists_eq_ok (b := [1, 0, 2, 3, 4])
    (f := fun p => p.newToOld.toList)
    (x := (ofLists [[1, 2, 3], [0, 1], [], [], []]).localityOrder ⟨3⟩) (by cbv)
  exact ⟨p, p', hp, horder, hp',
    (localityOrder_eq_of_wide (by decide) (by decide)).trans hp', horder'⟩

end Digraph

end LocalityOrder
