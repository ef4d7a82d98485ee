import LocalityOrder.Proofs.LabeledGraph
import LocalityOrder.Proofs.Transpose.Exact

/-!
# Events

What is reported of a graph and of its layout.  The reports that lead up to a layout count the graph
and name the vertex that comes first.  Then each vertex that has edges is reported at its place in
the renumbering, in this order, and every millionth of these reports is followed by a count.
-/

namespace LocalityOrder

open Placement (ComesFirst Remembers)

/-! ## Graphs that are read -/

namespace LabeledGraph

variable {rows : List Text.Row} {l : LabeledGraph}

theorem count_heads (rows : List Text.Row) (head : String) :
    ((rows.flatMap Text.Row.pairs).map Prod.fst).count head = (targetsOf rows head).length := by
  rw [← filter_pairs, List.length_map, List.count, List.countP_map, List.countP_eq_length_filter]
  rfl

theorem mem_labelsOf_of_mem_heads {head : String}
    (h : head ∈ (rows.flatMap Text.Row.pairs).map Prod.fst) : head ∈ labelsOf rows := by
  obtain ⟨pair, hpair, rfl⟩ := List.mem_map.mp h
  obtain ⟨row, hrow, hmem⟩ := List.mem_flatMap.mp hpair
  obtain ⟨target, -, rfl⟩ := List.mem_map.mp hmem
  exact mem_labelsOf.mpr ⟨row, hrow, List.mem_cons_self⟩

theorem IsOf.map_outDegree (h : l.IsOf rows) : (Vertex.all l.graph.size).map l.graph.outDegree =
    (labelsOf rows).map fun name => ((rows.flatMap Text.Row.pairs).map Prod.fst).count name := by
  refine List.ext_getElem ?_ fun v hv hv' => ?_
  · rw [List.length_map, List.length_map, Vertex.length_all, h.size]
  · rw [List.length_map] at hv'
    have htargets := h.targets _ (List.getElem_mem hv')
    rw [idOf, (nodup_labelsOf rows).idxOf_getElem v hv'] at htargets
    simp only [List.getElem_map, Vertex.all, List.getElem_range]
    rw [Digraph.outDegree, htargets, List.length_map, count_heads]

-- There is an edge for each target of a row.
theorem IsOf.edgeCount (h : l.IsOf rows) :
    l.graph.edgeCount = (rows.map fun row => row.targets.length).sum := by
  have hmem : ∀ head ∈ (((rows.flatMap Text.Row.pairs).map Prod.fst : List String) :
      Multiset String), head ∈ (labelsOf rows).toFinset := fun head hhead =>
    List.mem_toFinset.mpr (mem_labelsOf_of_mem_heads (Multiset.mem_coe.mp hhead))
  have hsum := Multiset.sum_count_eq_card hmem
  rw [List.sum_toFinset _ (nodup_labelsOf rows)] at hsum
  simp only [Multiset.coe_count, Multiset.coe_card] at hsum
  rw [l.graph.edgeCount_eq_sum, h.map_outDegree, hsum, List.length_map, List.length_flatMap]
  simp only [Text.Row.pairs, List.length_map]

/-- What is reported of a text that was read is the number of its labels and the number of targets
of all its rows. -/
theorem event_of_ofBytes {text : String} (h : ofBytes text.toUTF8 = .ok l) :
    l.event = ⟨.info, "Read " ++ toString (labelsOf (Text.rowsOf text)).length ++
      " vertices and " ++ toString ((Text.rowsOf text).map fun row => row.targets.length).sum ++
      " edges"⟩ := by
  obtain ⟨text', htext, hof⟩ := exists_text_of_ofBytes h
  obtain rfl := String.toByteArray_inj.mp htext
  have hsize : l.labels.size = (labelsOf (Text.rowsOf text)).length := by
    rw [← hof.names]
    rfl
  unfold event
  rw [hsize, hof.edgeCount]
  rfl

end LabeledGraph

/-! ## Layouts -/

namespace Layout

variable {g : Digraph} {settings : Settings} {l : Layout} {first : Option (Vertex × Nat)}

/-- The vertex from which a layout starts, as it is reported, with its in-degree. -/
inductive ReportsStart (g : Digraph) : (start : String) → (inDegree : Nat) → Prop
  | none (h : g.connected = []) : ReportsStart g "None" 0
  | some {v : Vertex} (h : ComesFirst g g.connected v) :
      ReportsStart g ("Some(v" ++ toString v ++ ")") (g.inDegree v)

theorem reportsStart_of_remembers (h : Remembers g (Vertex.all g.size) first) :
    ReportsStart g (firstText first) ((first.map Prod.snd).getD 0) := by
  cases first with
  | none => exact .none (List.filter_eq_nil_iff.mpr fun v hv => by simpa using h v hv)
  | some best =>
    obtain ⟨v, degree⟩ := best
    obtain ⟨rfl, hcomes⟩ := h
    exact .some hcomes

/-- The reports of a vertex that gets its place, given how many vertices are to be placed. -/
def placing (connected : Nat) (v : Vertex) (place : Nat) : List Event :=
  ⟨.trace, "Placing v" ++ toString v ++ " at " ++ toString place⟩ ::
    if 1000000 ∣ place + 1 then
      [⟨.debug, "Placed " ++ toString (place + 1) ++ " of " ++ toString connected ++ " vertices"⟩]
    else []

/-- The reports of vertices that get their places one after the other. -/
def placings (connected : Nat) (placed : List Vertex) : List Event :=
  placed.zipIdx.flatMap fun (v, place) => placing connected v place

theorem placingEvents_eq (connected : Nat) (v : Vertex) (place : Nat) :
    placingEvents connected v place = placing connected v place := by
  have htext : "Placing " ++ v.label ++ " at " ++ toString place =
      "Placing v" ++ toString v ++ " at " ++ toString place :=
    congrArg (· ++ " at " ++ toString place) (@String.append_assoc "Placing " "v" _).symm
  simp only [placingEvents, placing, Nat.dvd_iff_mod_eq_zero]
  split
  next => exact congrArg (fun text => [Event.mk .trace text, _]) htext
  next => exact congrArg (fun text => [Event.mk .trace text]) htext

theorem size_of_layout (h : g.layout settings = .ok l) : l.renumbering.size = g.size := by
  have hp : g.localityOrder settings = .ok l.renumbering := by
    rw [Digraph.localityOrder, h, ok_bind, pure_eq_ok]
  exact Digraph.size_of_localityOrder hp

/-- A layout is reported by the size of the graph, its number of edges and the window, by the number
of isolated vertices and the vertex that comes first, and then by the vertices that have edges, in
the order of the renumbering. -/
theorem events_of_layout (h : g.layout settings = .ok l) :
    ∃ start inDegree, ReportsStart g start inDegree ∧ l.events settings =
      [⟨.debug, "Built incoming adjacency: " ++ toString g.size ++ " vertices, " ++
          toString g.edgeCount ++ " edges"⟩,
       ⟨.info, "Reordering " ++ toString g.size ++ " vertices and " ++ toString g.edgeCount ++
          " edges with window " ++ toString settings.window⟩,
       ⟨.debug, toString g.isolates.length ++ " isolated vertices, starting from " ++ start ++
          " with in-degree " ++ toString inDegree⟩] ++
      placings g.connected.length (l.renumbering.newToOld.toList.take g.connected.length) := by
  obtain ⟨t, s, ht, hw, hs, horder, hl⟩ := Digraph.of_layout h
  have hof := Transpose.isOf_of_ofDigraph ht
  obtain ⟨_, -, -, -, entered, r, hholds, hempty⟩ := Placement.Reached.of_complete hof hw hs
  have hisolates : s.isolated.toList = g.isolates := hholds.isolated
  have hlength := Digraph.length_order_of_empty hholds hempty
  have hsize := size_of_layout h
  have hconnected : g.size - g.isolates.length = g.connected.length := by
    rw [← g.length_connected_add, Nat.add_sub_cancel]
  have hplaced : l.renumbering.newToOld.toList.take g.connected.length = s.order.toList := by
    rw [horder, Placement.fullOrder, ← hlength, List.take_left]
  refine ⟨_, _, reportsStart_of_remembers (Placement.remembers_of_complete hof hs), ?_⟩
  simp only [placings, ← placingEvents_eq]
  rw [hplaced, ← hconnected, ← Transpose.edgeCount_of_ofDigraph ht, ← hisolates, ← hsize, hl]
  rfl

/-! ## The vertices and their count -/

theorem filter_trace_placing (connected : Nat) (v : Vertex) (place : Nat) :
    (placing connected v place).filter (·.level = .trace) =
      [⟨.trace, "Placing v" ++ toString v ++ " at " ++ toString place⟩] := by
  unfold placing
  split
  next => rfl
  next => rfl

theorem countP_debug_placing (connected : Nat) (v : Vertex) (place : Nat) :
    (placing connected v place).countP (·.level = .debug) =
      if 1000000 ∣ place + 1 then 1 else 0 := by
  unfold placing
  split
  next => rfl
  next => rfl

theorem countP_debug_placings (connected : Nat) (placed : List Vertex) :
    (placings connected placed).countP (·.level = .debug) = placed.length / 1000000 := by
  induction placed using List.reverseRecOn with
  | nil => rfl
  | append_singleton placed v ih =>
    have hlast : placings connected (placed ++ [v]) =
        placings connected placed ++ placing connected v placed.length := by
      unfold placings
      rw [List.zipIdx_append, List.flatMap_append]
      simp
    rw [hlast, List.countP_append, ih, countP_debug_placing, List.length_append,
      List.length_singleton, Nat.succ_div]

/-- Each vertex that has edges is reported once, in the order of the renumbering and at its place
there. -/
theorem filter_trace_events (h : g.layout settings = .ok l) :
    (l.events settings).filter (·.level = .trace) =
      (l.renumbering.newToOld.toList.take g.connected.length).zipIdx.map fun (v, place) =>
        ⟨.trace, "Placing v" ++ toString v ++ " at " ++ toString place⟩ := by
  obtain ⟨start, inDegree, -, hevents⟩ := events_of_layout h
  rw [hevents, List.filter_append, placings, List.filter_flatMap, List.map_eq_flatMap]
  simp only [filter_trace_placing]
  rfl

/-- Every million vertices with edges there is one report more. -/
theorem countP_debug_events (h : g.layout settings = .ok l) :
    (l.events settings).countP (·.level = .debug) = 2 + g.connected.length / 1000000 := by
  obtain ⟨start, inDegree, -, hevents⟩ := events_of_layout h
  have hlength : g.connected.length ≤ l.renumbering.newToOld.toList.length := by
    rw [Table.length_toList, show l.renumbering.newToOld.size = g.size from size_of_layout h,
      ← g.length_connected_add]
    exact Nat.le_add_right _ _
  rw [hevents, List.countP_append, countP_debug_placings, List.length_take_of_le hlength]
  rfl

end Layout

end LocalityOrder
