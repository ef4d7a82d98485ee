import LocalityOrder.Proofs.Affinity
import LocalityOrder.Proofs.Window
import Mathlib.Data.List.Sort
import Mathlib.Order.Monotone.Defs

/-!
# Graphs spread over more ids

A graph is spread over another one by a map that keeps the order of ids: each of its vertices stands
for one of the other, with its list mapped alike, and all other vertices have no edges.  What is
counted along the edges then only changes its names.
-/

namespace LocalityOrder

-- Two ascending lists of the same ids are the same.
theorem eq_of_ascending {l l' : List Vertex} (h : l.Pairwise (· < ·)) (h' : l'.Pairwise (· < ·))
    (hmem : ∀ v, v ∈ l ↔ v ∈ l') : l = l' := h.eq_of_mem_iff h' hmem

namespace Digraph

/-- The second graph is the first one with other names and more vertices without edges. -/
structure Spread (g g' : Digraph) (f : Vertex → Vertex) : Prop where
  strictMono : StrictMono f
  lt_size : ∀ v, v < g.size → f v < g'.size
  targets : ∀ v, v < g.size → g'.targets (f v) = (g.targets v).map f
  targets_eq_nil : ∀ u, (∀ v, v < g.size → f v ≠ u) → g'.targets u = []

namespace Spread

variable {g g' : Digraph} {f : Vertex → Vertex} {e b u v w : Vertex}

theorem injective (h : Spread g g' f) : Function.Injective f := h.strictMono.injective

theorem targets_map (h : Spread g g' f) (v : Vertex) : g'.targets (f v) = (g.targets v).map f := by
  by_cases hv : v < g.size
  · exact h.targets v hv
  · rw [targets_of_le (Nat.le_of_not_lt hv), List.map_nil]
    apply h.targets_eq_nil
    intro w hw heq
    exact hv (h.injective heq ▸ hw)

theorem outDegree (h : Spread g g' f) (v : Vertex) : g'.outDegree (f v) = g.outDegree v := by
  rw [Digraph.outDegree, h.targets_map, List.length_map]
  rfl

theorem size_le (h : Spread g g' f) : g.size ≤ g'.size := by
  cases hsize : g.size with
  | zero => exact Nat.zero_le _
  | succ n =>
    have hlt := h.lt_size n (by omega)
    exact Nat.lt_of_le_of_lt h.strictMono.le_apply hlt

/-! ## Edges -/

-- The ids that stand for a vertex are the images of all vertices.
theorem filter_all (h : Spread g g' f) :
    (Vertex.all g'.size).filter (fun u => u ∈ (Vertex.all g.size).map f) =
      (Vertex.all g.size).map f := by
  apply eq_of_ascending
  · exact List.pairwise_lt_range.filter _
  · exact List.pairwise_lt_range.map f fun a b hab => h.strictMono hab
  · intro u
    rw [List.mem_filter, decide_eq_true_eq, and_iff_right_iff_imp]
    intro hu
    obtain ⟨v, hv, rfl⟩ := List.mem_map.mp hu
    exact Vertex.mem_all.mpr (h.lt_size v (Vertex.mem_all.mp hv))

theorem edges (h : Spread g g' f) : g'.edges = g.edges.map (Prod.map f f) := by
  have hnone : ∀ u, u ∉ (Vertex.all g.size).map f → g'.edgesOf u = [] := fun u hu => by
    have htargets := h.targets_eq_nil u fun v hv heq =>
      hu (List.mem_map.mpr ⟨v, Vertex.mem_all.mpr hv, heq⟩)
    rw [edgesOf, htargets, List.map_nil]
  have hskip : ∀ l : List Vertex, l.flatMap g'.edgesOf =
      (l.filter fun u => u ∈ (Vertex.all g.size).map f).flatMap g'.edgesOf := fun l => by
    induction l with
    | nil => rfl
    | cons u rest ih =>
      by_cases hu : u ∈ (Vertex.all g.size).map f
      · rw [List.filter_cons_of_pos (by simpa using hu), List.flatMap_cons, List.flatMap_cons, ih]
      · rw [List.filter_cons_of_neg (by simpa using hu), List.flatMap_cons, hnone u hu, ih]
        rfl
  unfold Digraph.edges
  rw [hskip, h.filter_all, List.flatMap_map, List.map_flatMap]
  apply List.flatMap_congr
  intro v _
  rw [edgesOf, edgesOf, h.targets_map, List.map_map, List.map_map]
  rfl

theorem edgeCount (h : Spread g g' f) : g'.edgeCount = g.edgeCount := by
  rw [← length_edges, h.edges, List.length_map, length_edges]

theorem inRange (h : Spread g g' f) (hrange : g.InRange) : g'.InRange := by
  intro edge hedge
  rw [h.edges] at hedge
  obtain ⟨edge, hmem, rfl⟩ := List.mem_map.mp hedge
  exact h.lt_size _ (hrange edge hmem)

theorem sources (h : Spread g g' f) (v : Vertex) : g'.sources (f v) = (g.sources v).map f := by
  unfold Digraph.sources
  rw [h.edges, List.filter_map, List.map_map, List.map_map]
  have hsame : ((fun edge : Vertex × Vertex => decide (edge.2 = f v)) ∘ Prod.map f f) =
      fun edge : Vertex × Vertex => decide (edge.2 = v) := by
    funext edge
    exact decide_eq_decide.mpr h.injective.eq_iff
  rw [hsame]
  rfl

theorem inDegree (h : Spread g g' f) (v : Vertex) : g'.inDegree (f v) = g.inDegree v := by
  rw [← length_sources, h.sources, List.length_map, length_sources]

theorem isIsolated_iff (h : Spread g g' f) : g'.IsIsolated (f v) ↔ g.IsIsolated v := by
  unfold IsIsolated
  rw [h.inDegree, h.outDegree]

-- A vertex with edges stands for one with edges.
theorem exists_of_not_isIsolated (h : Spread g g' f) (hrange : g.InRange)
    (hu : ¬ g'.IsIsolated u) : ∃ v, v < g.size ∧ ¬ g.IsIsolated v ∧ f v = u := by
  by_contra hnone
  push Not at hnone
  have hout : ∀ v, v < g.size → f v ≠ u := fun v hv heq => by
    by_cases hiso : g.IsIsolated v
    · exact hu (heq ▸ h.isIsolated_iff.mpr hiso)
    · exact hnone v hv hiso heq
  refine hu ⟨?_, ?_⟩
  · -- an edge to `u` would come from an edge to a vertex that `u` stands for
    rw [← length_sources, List.length_eq_zero_iff]
    apply List.eq_nil_iff_forall_not_mem.mpr
    intro w hw
    have hedge : (w, u) ∈ g'.edges := mem_edges.mpr (mem_sources.mp hw)
    rw [h.edges] at hedge
    obtain ⟨edge, hmem, heq⟩ := List.mem_map.mp hedge
    exact hout edge.2 (hrange edge hmem) (congrArg Prod.snd heq)
  · rw [Digraph.outDegree, h.targets_eq_nil u hout, List.length_nil]

/-! ## What a slide counts -/

theorem contains_map (h : Spread g g' f) (l : List Vertex) (v : Vertex) :
    (l.map f).contains (f v) = l.contains v := by
  rw [Bool.eq_iff_iff, List.contains_iff_mem, List.contains_iff_mem,
    List.mem_map_of_injective h.injective]

theorem gainsFrom (h : Spread g g' f) (leaving : Option Vertex) (u : Vertex) :
    g'.gainsFrom (leaving.map f) (f u) = (g.gainsFrom leaving u).map f := by
  have hany : (leaving.map f).any (fun b => (g'.targets (f u)).contains b) =
      leaving.any fun b => (g.targets u).contains b := by
    cases leaving with
    | none => rfl
    | some b =>
      rw [h.targets_map]
      exact h.contains_map _ b
  unfold Digraph.gainsFrom
  rw [h.outDegree, hany, List.map_cons]
  split
  next => rfl
  next => rw [h.targets_map]

theorem gains (h : Spread g g' f) (e : Vertex) (leaving : Option Vertex) :
    g'.gains (f e) (leaving.map f) = (g.gains e leaving).map f := by
  unfold Digraph.gains
  rw [h.sources, h.targets_map, List.flatMap_map, List.map_append, List.map_flatMap]
  congr 1
  exact List.flatMap_congr fun u _ => h.gainsFrom leaving u

theorem lossesFrom (h : Spread g g' f) {flagged flagged' : Vertex → Bool}
    (hflagged : ∀ u, flagged' (f u) = flagged u) (us : List Vertex) :
    g'.lossesFrom flagged' (us.map f) = (g.lossesFrom flagged us).map f := by
  induction us generalizing flagged flagged' with
  | nil => rfl
  | cons u rest ih =>
    rw [List.map_cons, Digraph.lossesFrom, Digraph.lossesFrom, h.outDegree, hflagged]
    split
    next => rw [List.map_cons, ih hflagged]
    next =>
      split
      next =>
        -- the flag is used up on both sides
        rw [List.map_cons, ih]
        intro w
        by_cases hw : w = u
        · rw [hw, Function.update_self, Function.update_self]
        · rw [Function.update_of_ne hw, Function.update_of_ne (h.injective.ne hw), hflagged]
      next => rw [h.targets_map, List.map_append, List.map_cons, ih hflagged]

theorem losses (h : Spread g g' f) (e b : Vertex) :
    g'.losses (f e) (f b) = (g.losses e b).map f := by
  have hflags : ∀ u, g'.flags (f e) (f b) (f u) = g.flags e b u := fun u => by
    have hmem : f u ∈ g'.sources (f e) ↔ u ∈ g.sources e := by
      rw [h.sources, List.mem_map_of_injective h.injective]
    unfold flags
    rw [decide_eq_decide.mpr hmem, h.outDegree, h.targets_map, h.contains_map]
  unfold Digraph.losses
  rw [h.sources, h.targets_map, h.lossesFrom hflags, List.map_append]

end Spread

end Digraph

-- The window over a renamed order loses the renamed vertex.
theorem leavingVertex_map (f : Vertex → Vertex) (window : Nat) (order : List Vertex) :
    leavingVertex window (order.map f) = (leavingVertex window order).map f := by
  unfold leavingVertex
  rw [List.length_map, List.getElem?_map]
  split <;> rfl

end LocalityOrder
