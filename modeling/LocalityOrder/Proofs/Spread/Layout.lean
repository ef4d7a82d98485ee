import LocalityOrder.Proofs.Layout
import LocalityOrder.Proofs.Spread.Start

/-!
# Layouts of spread graphs

Two placements over a graph and over one that is spread over more ids go on side by side: each slide
and each choice is the same up to the names.  So vertices without edges, wherever they lie among the
ids, have no influence on the order of the others.
-/

namespace LocalityOrder

open RankedList (Spread)

variable {g g' : Digraph} {f : Vertex → Vertex} {t t' : Transpose} {s s' : Placement}
  {window : Nat}

/-! ## Placements side by side -/

namespace Placement

/-- Both placements have placed the same vertices up to the names, and their queues are alike. -/
structure Beside (g g' : Digraph) (f : Vertex → Vertex) (window : Nat) (s s' : Placement) :
    Prop where
  order : s'.order.toList = s.order.toList.map f
  holds : ∃ entered e r r', s.order.toList = entered ++ [e] ∧ Holds g window entered s r ∧
    Holds g' window (entered.map f) s' r' ∧ Spread f g.size r r'

/-- The window slides over both last vertices, and then the best vertex is the same. -/
theorem Beside.step_alike (h : Beside g g' f window s s') (hg : g.Spread g' f) (ht : t.IsOf g)
    (ht' : t'.IsOf g') (hw : 1 ≤ window) :
    Alike (Beside g g' f window) (s.slide g t window >>= placeBest)
      (s'.slide g' t' window >>= placeBest) := by
  obtain ⟨entered, e, r, r', horder, hholds, hholds', hspread⟩ := h.holds
  have horder' : s'.order.toList = entered.map f ++ [f e] := by
    rw [h.order, horder, List.map_append, List.map_singleton]
  have hnew : e ∉ entered := (nodup_append_singleton.mp (horder ▸ hholds.nodup_order)).1
  have hleaving : leavingVertex window (entered.map f ++ [f e]) =
      (leavingVertex window (entered ++ [e])).map f := by
    rw [← leavingVertex_map, List.map_append, List.map_singleton]
  have hranked := hspread.slide_alike hg ht.inRange
    (RankedList.ne_of_leavingVertex hw hnew)
  rw [← hleaving] at hranked
  refine ((hholds.slide_alike ht hw horder).trans
    (hranked.trans (hholds'.slide_alike ht' hw horder').symm)).bind fun s₁ s₁' hslide => ?_
  obtain ⟨r₁, ⟨hholds₁, horder₁, -⟩, r₁', hspread₁, hholds₁', horder₁', -⟩ := hslide
  refine (hholds₁.placeBest_alike.trans ((hspread₁.takeBest_alike hg.injective).trans
    hholds₁'.placeBest_alike.symm)).mono fun s₂ s₂' hplace => ?_
  obtain ⟨⟨v, r₂⟩, ⟨hholds₂, horder₂, -⟩, ⟨v', r₂'⟩, ⟨hv, hspread₂⟩, hholds₂', horder₂', -⟩ :=
    hplace
  dsimp only at horder₂ horder₂' hholds₂ hholds₂' hv hspread₂
  have hplaced : s₂.order.toList = (entered ++ [e]) ++ [v] := by
    rw [horder₂, Array.toList_push, horder₁, horder]
  have hplaced' : s₂'.order.toList = (entered.map f ++ [f e]) ++ [f v] := by
    rw [horder₂', Array.toList_push, horder₁', horder', hv]
  refine ⟨?_, entered ++ [e], v, r₂, r₂', hplaced, hholds₂, ?_, hspread₂⟩
  · rw [hplaced, hplaced']
    simp
  · rw [List.map_append, List.map_singleton]
    exact hholds₂'

theorem Beside.advance_alike (h : Beside g g' f window s s') (hg : g.Spread g' f)
    (ht : t.IsOf g) (ht' : t'.IsOf g') (hw : 1 ≤ window) (count : Nat) :
    Alike (Beside g g' f window) (s.advance g t window count) (s'.advance g' t' window count) := by
  induction count generalizing s s' with
  | zero => exact .ok h
  | succ count ih =>
    rw [advance, advance, ← bind_assoc, ← bind_assoc]
    exact (h.step_alike hg ht ht' hw).bind fun s₁ s₁' h₁ => ih h₁

/-! ## Starts and whole placements -/

-- Two starts succeed under the same limits, since the in-degrees are the same.
theorem exists_start_iff (hg : g.Spread g' f) (ht : t.IsOf g) (ht' : t'.IsOf g')
    (hsize : g'.size < RunQueue.capacity) :
    (∃ s, start g t = .ok s) ↔ ∃ s', start g' t' = .ok s' := by
  constructor
  · rintro ⟨s, hs⟩
    obtain ⟨r, hr⟩ := exists_starting_of_start ht hs
    refine exists_start ht' hsize fun u => ?_
    by_cases hu : g'.IsIsolated u
    · rw [hu.1]
      decide
    · obtain ⟨v, hv, -, rfl⟩ := hg.exists_of_not_isIsolated ht.inRange hu
      rw [hg.inDegree]
      exact RankedList.inDegree_lt_of_starting ht.edgeCount_le hr hv
  · rintro ⟨s', hs'⟩
    obtain ⟨r', hr'⟩ := exists_starting_of_start ht' hs'
    refine exists_start ht (Nat.lt_of_le_of_lt hg.size_le hsize) fun v => ?_
    by_cases hv : v < g.size
    · rw [← hg.inDegree]
      exact RankedList.inDegree_lt_of_starting ht'.edgeCount_le hr' (hg.lt_size v hv)
    · rw [Digraph.inDegree_eq_zero ht.inRange (Nat.le_of_not_lt hv)]
      decide

-- Where two placements have started, the vertices with edges that are left are the same.
theorem spread_of_start (hg : g.Spread g' f) (ht : t.IsOf g) (ht' : t'.IsOf g')
    (hs : start g t = .ok s) (hs' : start g' t' = .ok s') :
    s'.order.toList = s.order.toList.map f ∧ ∃ r r', Spread f g.size r r' ∧
      ∀ window, Holds g window [] s r ∧ Holds g' window [] s' r' := by
  obtain ⟨r₀, hr₀⟩ := exists_starting_of_start ht hs
  obtain ⟨r₀', hr₀'⟩ := exists_starting_of_start ht' hs'
  obtain ⟨s₁, r, hs₁, hstarts, hholds, haside⟩ := exists_start_of_starting ht hr₀
  obtain ⟨s₁', r', hs₁', hstarts', hholds', haside'⟩ := exists_start_of_starting ht' hr₀'
  obtain rfl : s = s₁ := Except.ok.inj (hs.symm.trans hs₁)
  obtain rfl : s' = s₁' := Except.ok.inj (hs'.symm.trans hs₁')
  have horder := hstarts.order_eq hg ht.inRange hstarts'
  have hbegun := (RankedList.Begun.of_starting ht.inRange ht.edgeCount_le hr₀).foldlM_setAside
    haside
  have hbegun' := (RankedList.Begun.of_starting ht'.inRange ht'.edgeCount_le hr₀').foldlM_setAside
    haside'
  refine ⟨horder, r, r', hbegun.spread hbegun' hg (fun v hv => ?_) fun u hu hnot => ?_,
    fun window => ⟨hholds window, hholds' window⟩⟩
  · have hmem : f v < g'.size := hg.lt_size v hv
    simp only [List.nil_append, List.mem_append, List.mem_filter, Vertex.mem_all,
      decide_eq_true_eq, hg.isIsolated_iff, horder, List.mem_map_of_injective hg.injective, hv, hmem,
      true_and]
  · have hedge : ¬ g'.IsIsolated u := fun hiso => hnot <| by
      simp only [List.nil_append, List.mem_append, List.mem_filter, Vertex.mem_all,
        decide_eq_true_eq]
      exact .inl ⟨hu, hiso⟩
    obtain ⟨v, hv, -, heq⟩ := hg.exists_of_not_isIsolated ht.inRange hedge
    exact ⟨v, hv, heq⟩

-- Where no vertex is placed first, none is left to place.
theorem length_order_eq_zero_of_start {r : RankedList} (ht : t.IsOf g) (hs : start g t = .ok s)
    (h : Holds g window [] s r) (hnone : s.order = #[]) : r.order.length = 0 := by
  cases reached_of_start ht hs window with
  | nothing h₀ _ hempty =>
    have hlength₀ := h₀.length
    have hlength := h.length
    rw [hempty, List.length_nil] at hlength₀
    omega
  | placed _ hplaced =>
    rw [hnone] at hplaced
    simp at hplaced

/-- Placements that have started end alike, with the same order up to the names. -/
theorem complete_alike (hg : g.Spread g' f) (ht : t.IsOf g) (ht' : t'.IsOf g') (hw : 1 ≤ window)
    (hs : start g t = .ok s) (hs' : start g' t' = .ok s') :
    Alike (fun s s' => s'.order.toList = s.order.toList.map f) (complete g t window)
      (complete g' t' window) := by
  obtain ⟨horder, r, r', hspread, hholds⟩ := spread_of_start hg ht ht' hs hs'
  obtain ⟨h, h'⟩ := hholds window
  have hcount : g.size - s.isolated.size - s.order.size = r.order.length := by
    have hlength := h.length
    omega
  have hcount' : g'.size - s'.isolated.size - s'.order.size = r.order.length := by
    have hlength := h'.length
    rw [hspread.order, List.length_map] at hlength
    omega
  unfold complete
  rw [hs, hs', ok_bind, ok_bind, hcount, hcount']
  rcases (of_start ht hs).1 with ⟨hnone, -⟩ | ⟨v, hone, -⟩
  · rw [length_order_eq_zero_of_start ht hs h hnone]
    exact .ok horder
  · have hplaced : s.order.toList = [] ++ [v] := by
      rw [hone]
      rfl
    have hbeside : Beside g g' f window s s' := ⟨horder, [], v, r, r', hplaced, h, h', hspread⟩
    exact (hbeside.advance_alike hg ht ht' hw _).mono fun _ _ hend => hend.order

end Placement

/-! ## Vertices without edges -/

namespace Digraph

variable {settings : Settings} {p p' : Renumbering}

-- A map of the vertices of a graph, continued behind the ids of the other graph.
def continued (g g' : Digraph) (f : Vertex → Vertex) (v : Vertex) : Vertex :=
  if v < g.size then f v else g'.size + v

theorem continued_of_lt {v : Vertex} (hv : v < g.size) : g.continued g' f v = f v := if_pos hv

theorem continued_of_le {v : Vertex} (hv : ¬ v < g.size) :
    g.continued g' f v = g'.size + v := if_neg hv

-- A map that ascends on the vertices of a graph ascends everywhere once it is continued.
theorem spread_continued (hrange : g.InRange) (hmono : ∀ v w, v < w → w < g.size → f v < f w)
    (hlt : ∀ v, v < g.size → f v < g'.size)
    (htargets : ∀ v, v < g.size → g'.targets (f v) = (g.targets v).map f)
    (hnil : ∀ u, u < g'.size → (∀ v, v < g.size → f v ≠ u) → g'.targets u = []) :
    g.Spread g' (g.continued g' f) where
  strictMono v w hvw := by
    by_cases hw : w < g.size
    · rw [continued_of_lt hw, continued_of_lt (hvw.trans hw)]
      exact hmono v w hvw hw
    · rw [continued_of_le hw]
      by_cases hv : v < g.size
      · rw [continued_of_lt hv]
        exact Nat.lt_add_right w (hlt v hv)
      · rw [continued_of_le hv]
        exact Nat.add_lt_add_left hvw _
  lt_size v hv := by
    rw [continued_of_lt hv]
    exact hlt v hv
  targets v hv := by
    rw [continued_of_lt hv, htargets v hv]
    apply List.map_congr_left
    intro w hw
    exact (continued_of_lt (hrange (v, w) (mem_edges.mpr hw))).symm
  targets_eq_nil u hu := by
    by_cases hsize : u < g'.size
    · exact hnil u hsize fun v hv heq => hu v hv ((continued_of_lt hv).trans heq)
    · exact targets_of_le (Nat.le_of_not_lt hsize)

-- What is laid out first are the vertices of the placement.
theorem exists_complete_of_localityOrder (h : g.localityOrder settings = .ok p) :
    ∃ t s₀ s, Transpose.ofDigraph g = .ok t ∧ 1 ≤ settings.window ∧
      Placement.start g t = .ok s₀ ∧ Placement.complete g t settings.window = .ok s ∧
      s.order.toList.length = g.connected.length ∧
      p.newToOld.toList.take g.connected.length = s.order.toList := by
  obtain ⟨t, s, ht, hw, hs, horder⟩ := of_localityOrder h
  obtain ⟨s₀, hstart, -⟩ := bind_eq_ok_iff.mp hs
  obtain ⟨-, -, -, -, entered, r, hholds, hempty⟩ :=
    Placement.Reached.of_complete (Transpose.isOf_of_ofDigraph ht) hw hs
  have hlength := length_order_of_empty hholds hempty
  refine ⟨t, s₀, s, ht, hw, hstart, hs, hlength, ?_⟩
  rw [horder, Placement.fullOrder, ← hlength, List.take_left]

theorem Spread.exists_transposes (hg : g.Spread g' f) (hrange : g.InRange)
    (hsize : g'.size < RunQueue.capacity) (hcount : g.edgeCount ≤ Transpose.mostEdges) :
    ∃ t t', Transpose.ofDigraph g = .ok t ∧ Transpose.ofDigraph g' = .ok t' := by
  have hnames : g'.size ≤ Vertex.largest + 1 := hsize.le.trans (by decide)
  obtain ⟨t, ht⟩ := Transpose.exists_ofDigraph hrange (hg.size_le.trans hnames) hcount
  obtain ⟨t', ht'⟩ := Transpose.exists_ofDigraph (hg.inRange hrange) hnames (hg.edgeCount ▸ hcount)
  exact ⟨t, t', ht, ht'⟩

theorem Spread.exists_localityOrder_iff (hg : g.Spread g' f) (hrange : g.InRange)
    (hsize : g'.size < RunQueue.capacity) :
    (∃ p, g.localityOrder settings = .ok p) ↔ ∃ p', g'.localityOrder settings = .ok p' := by
  constructor
  · rintro ⟨p, h⟩
    obtain ⟨t₀, s₀, s, ht₀, hw, hstart, hs, -⟩ := exists_complete_of_localityOrder h
    have hof₀ := Transpose.isOf_of_ofDigraph ht₀
    obtain ⟨t, t', ht, ht'⟩ := hg.exists_transposes hrange hsize hof₀.edgeCount_le
    obtain rfl : t₀ = t := Except.ok.inj (ht₀.symm.trans ht)
    have hof' := Transpose.isOf_of_ofDigraph ht'
    obtain ⟨s₀', hstart'⟩ := (Placement.exists_start_iff hg hof₀ hof' hsize).mp ⟨s₀, hstart⟩
    obtain ⟨s', hs', -⟩ :=
      (Placement.complete_alike hg hof₀ hof' hw hstart hstart').exists_right hs
    exact exists_of_complete ht' hw hs'
  · rintro ⟨p', h'⟩
    obtain ⟨t₀', s₀', s', ht₀', hw, hstart', hs', -⟩ := exists_complete_of_localityOrder h'
    have hof₀' := Transpose.isOf_of_ofDigraph ht₀'
    obtain ⟨t, t', ht, ht'⟩ :=
      hg.exists_transposes hrange hsize (hg.edgeCount ▸ hof₀'.edgeCount_le)
    obtain rfl : t₀' = t' := Except.ok.inj (ht₀'.symm.trans ht')
    have hof := Transpose.isOf_of_ofDigraph ht
    obtain ⟨s₀, hstart⟩ := (Placement.exists_start_iff hg hof hof₀' hsize).mpr ⟨s₀', hstart'⟩
    obtain ⟨s, hs, -⟩ := (Placement.complete_alike hg hof hof₀' hw hstart hstart').exists_left hs'
    exact exists_of_complete ht hw hs

-- The vertices with edges lie in the same order.
theorem Spread.take_newToOld (hg : g.Spread g' f) (h : g.localityOrder settings = .ok p)
    (h' : g'.localityOrder settings = .ok p') :
    p'.newToOld.toList.take g.connected.length =
      (p.newToOld.toList.take g.connected.length).map f := by
  obtain ⟨t, s₀, s, ht, hw, hstart, hs, hlength, htake⟩ := exists_complete_of_localityOrder h
  obtain ⟨t', s₀', s', ht', -, hstart', hs', hlength', htake'⟩ :=
    exists_complete_of_localityOrder h'
  obtain ⟨s₁, hs₁, horder⟩ := (Placement.complete_alike hg (Transpose.isOf_of_ofDigraph ht)
    (Transpose.isOf_of_ofDigraph ht') hw hstart hstart').exists_left hs'
  obtain rfl : s = s₁ := Except.ok.inj (hs.symm.trans hs₁)
  have hconnected : g.connected.length = g'.connected.length := by
    rw [← hlength, ← hlength', horder, List.length_map]
  rw [htake, ← horder, ← htake', hconnected]

/-- Vertices without edges have no influence on the order of the others: a graph in which more of
them lie among the ids is laid out under the same windows, and what has edges lies in the same
order. -/
theorem localityOrder_of_isolates (hrange : g.InRange)
    (hmono : ∀ v w, v < w → w < g.size → f v < f w) (hlt : ∀ v, v < g.size → f v < g'.size)
    (htargets : ∀ v, v < g.size → g'.targets (f v) = (g.targets v).map f)
    (hnil : ∀ u, u < g'.size → (∀ v, v < g.size → f v ≠ u) → g'.targets u = [])
    (hsize : g'.size < 4294967294) (settings : Settings) :
    ((∃ p, g.localityOrder settings = .ok p) ↔ ∃ p', g'.localityOrder settings = .ok p') ∧
      ∀ p p', g.localityOrder settings = .ok p → g'.localityOrder settings = .ok p' →
        p'.newToOld.toList.take g.connected.length =
          (p.newToOld.toList.take g.connected.length).map f := by
  have hg := spread_continued hrange hmono hlt htargets hnil
  refine ⟨hg.exists_localityOrder_iff hrange hsize, fun p p' h h' => ?_⟩
  rw [hg.take_newToOld h h']
  apply List.map_congr_left
  intro v hv
  obtain ⟨-, -, -, hperm, -⟩ := exists_placed h
  exact continued_of_lt (Vertex.mem_all.mp (hperm.mem_iff.mp (List.mem_of_mem_take hv)))

set_option maxRecDepth 100000 in
/-- Two vertices without edges in front of a graph and one within it. -/
theorem localityOrder_of_isolates_around :
    ∃ p p', (ofLists [[1], [1], [3], [3]]).localityOrder ⟨1⟩ = .ok p ∧
      (ofLists [[], [], [3], [3], [], [6], [6]]).localityOrder ⟨1⟩ = .ok p' ∧
      p.newToOld.toList = [1, 3, 2, 0] ∧ p'.newToOld.toList.take 4 = [3, 6, 5, 2] := by
  obtain ⟨p, hp, horder⟩ := exists_eq_ok (b := [1, 3, 2, 0]) (f := fun p => p.newToOld.toList)
    (x := (ofLists [[1], [1], [3], [3]]).localityOrder ⟨1⟩) (by cbv)
  have hmono : ∀ v w : Vertex, v < w → v + v / 2 + 2 < w + w / 2 + 2 := fun v w hvw =>
    Nat.add_lt_add_right (Nat.add_lt_add_of_lt_of_le hvw (Nat.div_le_div_right hvw.le)) 2
  have hsize : (ofLists [[], [], [3], [3], [], [6], [6]]).size < 4294967294 := by decide
  obtain ⟨hiff, heq⟩ := localityOrder_of_isolates (g := ofLists [[1], [1], [3], [3]])
    (f := fun v => v + v / 2 + 2) (by decide) (fun v w hvw _ => hmono v w hvw) (by decide)
    (by decide) (by decide) hsize ⟨1⟩
  obtain ⟨p', hp'⟩ := hiff.mp ⟨p, hp⟩
  have htake := heq p p' hp hp'
  rw [horder] at htake
  exact ⟨p, p', hp, hp', horder, htake⟩

end Digraph

end LocalityOrder
