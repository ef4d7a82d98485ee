import LocalityOrder.Proofs.Affinity
import Mathlib.Data.Finset.Lattice.Fold
import Mathlib.Data.List.DropRight
import Mathlib.Order.Interval.Finset.Nat
import Mathlib.Order.Lattice.Nat

/-!
# Windows over an order

The window over an order holds the vertices placed last, and as one vertex is placed another one may
leave.  From an order alone one knows what the scores should be: the affinity to the window, less
the deficits of all slides so far, and never above the peak.
-/

namespace LocalityOrder

/-! ## What enters and what leaves -/

/-- The vertex that leaves a window of the given width as the last one of `order` enters it. -/
def leavingVertex (window : Nat) (order : List Vertex) : Option Vertex :=
  if window < order.length then order[order.length - window - 1]? else none

variable {window : Nat} {entered : List Vertex} {e b : Vertex}

-- A vertex leaves when the window was full, and then it came first in it.
theorem leavingVertex_cases (hw : 1 ≤ window) (entered : List Vertex) (e : Vertex) :
    entered.length < window ∧ leavingVertex window (entered ++ [e]) = none ∨
      ∃ left b rest, entered = left ++ b :: rest ∧ rest.length + 1 = window ∧
        leavingVertex window (entered ++ [e]) = some b := by
  unfold leavingVertex
  rw [List.length_append, List.length_singleton]
  by_cases hlt : entered.length < window
  · exact .inl ⟨hlt, if_neg (by omega)⟩
  · right
    have hlen : (entered.drop (entered.length - window)).length = window := by
      rw [List.length_drop]
      omega
    match hdrop : entered.drop (entered.length - window) with
    | [] =>
      rw [hdrop] at hlen
      simp only [List.length_nil] at hlen
      omega
    | b :: rest =>
      rw [hdrop, List.length_cons] at hlen
      have hsplit := List.take_append_drop (entered.length - window) entered
      rw [hdrop] at hsplit
      refine ⟨_, b, rest, hsplit.symm, hlen, ?_⟩
      have hlast : entered.length + 1 - window - 1 = entered.length - window := by omega
      rw [if_pos (by omega), hlast, List.getElem?_append_left (by omega), List.getElem?_eq_some_iff]
      refine ⟨by omega, ?_⟩
      have hhead : (entered.drop (entered.length - window)).head? = some b := by
        rw [hdrop, List.head?_cons]
      rw [List.head?_drop, List.getElem?_eq_some_iff] at hhead
      exact hhead.2

theorem mem_of_leavingVertex (hw : 1 ≤ window)
    (h : leavingVertex window (entered ++ [e]) = some b) : b ∈ entered := by
  rcases leavingVertex_cases hw entered e with ⟨-, hnone⟩ | ⟨left, b', rest, rfl, -, hsome⟩
  · rw [hnone] at h
    cases h
  · rw [hsome, Option.some_inj] at h
    simp [h]

-- what is placed last was not placed before
theorem nodup_append_singleton :
    (entered ++ [e]).Nodup ↔ e ∉ entered ∧ entered.Nodup := by
  rw [← List.concat_eq_append, List.nodup_concat]

-- a window over fewer vertices than its width holds them all
theorem rtake_of_length_le {l : List Vertex} (h : l.length ≤ window) : l.rtake window = l := by
  unfold List.rtake
  rw [Nat.sub_eq_zero_of_le h, List.drop_zero]

theorem rdrop_of_length_le {l : List Vertex} (h : l.length ≤ window) : l.rdrop window = [] := by
  unfold List.rdrop
  rw [Nat.sub_eq_zero_of_le h, List.take_zero]

-- a window as wide as the end of a list holds this end
theorem rtake_append (left : List Vertex) {last : List Vertex} (h : last.length = window) :
    (left ++ last).rtake window = last := by
  unfold List.rtake
  rw [List.length_append, h, Nat.add_sub_cancel, List.drop_left]

theorem rdrop_append (left : List Vertex) {last : List Vertex} (h : last.length = window) :
    (left ++ last).rdrop window = left := by
  unfold List.rdrop
  rw [List.length_append, h, Nat.add_sub_cancel, List.take_left]

-- after one vertex more, the window over a full one begins behind the vertex that leaves
theorem append_singleton_split (left rest : List Vertex) (b e : Vertex) :
    (left ++ b :: rest) ++ [e] = (left ++ [b]) ++ (rest ++ [e]) := by
  rw [List.append_assoc left [b], List.append_assoc left]
  rfl

/-- A window of width one more holds the entering vertex and the leaving one. -/
theorem rtake_append_singleton (hw : 1 ≤ window) (entered : List Vertex) (e : Vertex) :
    entered.rtake window ++ [e] =
      (leavingVertex window (entered ++ [e])).toList ++ (entered ++ [e]).rtake window := by
  rcases leavingVertex_cases hw entered e with ⟨hlt, hnone⟩ | ⟨left, b, rest, rfl, hlen, hsome⟩
  · have hall : (entered ++ [e]).length ≤ window := by
      rw [List.length_append, List.length_singleton]
      exact hlt
    rw [hnone, rtake_of_length_le (Nat.le_of_lt hlt), rtake_of_length_le hall]
    rfl
  · have hlast : (rest ++ [e]).length = window := by
      rw [List.length_append, List.length_singleton]
      exact hlen
    have hlast' : (b :: rest).length = window := hlen
    rw [hsome, append_singleton_split, rtake_append _ hlast, rtake_append _ hlast']
    rfl

-- What has left the window, after one vertex more.
theorem rdrop_append_singleton (hw : 1 ≤ window) (entered : List Vertex) (e : Vertex) :
    (entered ++ [e]).rdrop window =
      entered.rdrop window ++ (leavingVertex window (entered ++ [e])).toList := by
  rcases leavingVertex_cases hw entered e with ⟨hlt, hnone⟩ | ⟨left, b, rest, rfl, hlen, hsome⟩
  · have hall : (entered ++ [e]).length ≤ window := by
      rw [List.length_append, List.length_singleton]
      exact hlt
    rw [hnone, rdrop_of_length_le (Nat.le_of_lt hlt), rdrop_of_length_le hall]
    rfl
  · have hlast : (rest ++ [e]).length = window := by
      rw [List.length_append, List.length_singleton]
      exact hlen
    have hlast' : (b :: rest).length = window := hlen
    rw [hsome, append_singleton_split, rdrop_append _ hlast, rdrop_append _ hlast']
    rfl

namespace Digraph

/-! ## Deficits -/

/-- The deficits of all slides over an order: as the vertex at one place enters the window, the one
`window` places before it leaves. -/
def deficit (g : Digraph) (window : Nat) (order : List Vertex) (v : Vertex) : Nat :=
  (((order.drop window).zip order).map fun (e, b) => g.slideDeficit e b v).sum

variable {g : Digraph} {v : Vertex}

theorem deficit_append_singleton (hw : 1 ≤ window) (entered : List Vertex) (e v : Vertex) :
    g.deficit window (entered ++ [e]) v = g.deficit window entered v +
      (leavingVertex window (entered ++ [e])).elim 0 fun b => g.slideDeficit e b v := by
  unfold deficit
  rcases leavingVertex_cases hw entered e with ⟨hlt, hnone⟩ | ⟨left, b, rest, rfl, hlen, hsome⟩
  · have hdrop : (entered ++ [e]).drop window = [] :=
      List.drop_eq_nil_of_le (by rw [List.length_append, List.length_singleton]; exact hlt)
    rw [hnone, hdrop, List.drop_eq_nil_of_le (Nat.le_of_lt hlt)]
    rfl
  · rw [hsome]
    have hall : (left ++ b :: rest).length = left.length + window := by
      rw [List.length_append, List.length_cons, hlen]
    have hlength : ((left ++ b :: rest).drop window).length = left.length := by
      rw [List.length_drop, hall, Nat.add_sub_cancel]
    have hzip : ((left ++ b :: rest).drop window).zip (left ++ b :: rest) =
        ((left ++ b :: rest).drop window).zip left := by
      rw [← List.append_nil ((left ++ b :: rest).drop window), List.zip_append hlength]
      simp only [List.zip_nil_left, List.append_nil]
    have hzip' : ((left ++ b :: rest ++ [e]).drop window).zip (left ++ b :: rest ++ [e]) =
        ((left ++ b :: rest).drop window).zip left ++ [(e, b)] := by
      rw [List.drop_append_of_le_length (by omega), List.append_assoc left, List.zip_append hlength]
      rfl
    rw [hzip, hzip', List.map_append, List.sum_append]
    rfl

-- Where no list repeats a vertex, there are no deficits.
theorem deficit_of_nodup (h : ∀ u, u < g.size → (g.targets u).Nodup) (window : Nat)
    (order : List Vertex) (v : Vertex) : g.deficit window order v = 0 := by
  unfold deficit
  rw [List.sum_eq_zero]
  intro d hd
  obtain ⟨⟨e, b⟩, -, rfl⟩ := List.mem_map.mp hd
  exact slideDeficit_of_nodup h e b v

/-! ## Peaks -/

/-- The largest score that `v` had at its start, which is its in-degree, or with respect to a window
that was entered and not yet left. -/
def peak (g : Digraph) (window : Nat) (entered : List Vertex) (v : Vertex) : Nat :=
  max (g.inDegree v) ((Finset.Icc 1 entered.length).sup fun t =>
    g.windowAffinity ((entered.take t).rtake (window + 1)) v)

theorem inDegree_le_peak (g : Digraph) (window : Nat) (entered : List Vertex) (v : Vertex) :
    g.inDegree v ≤ g.peak window entered v := Nat.le_max_left _ _

theorem peak_mono (g : Digraph) (window : Nat) (entered : List Vertex) (e v : Vertex) :
    g.peak window entered v ≤ g.peak window (entered ++ [e]) v := by
  refine Nat.max_le.mpr ⟨inDegree_le_peak _ _ _ _, Finset.sup_le fun t ht => ?_⟩
  rw [Finset.mem_Icc] at ht
  have hmem : t ∈ Finset.Icc 1 (entered ++ [e]).length := by
    rw [Finset.mem_Icc, List.length_append, List.length_singleton]
    omega
  refine Nat.le_trans ?_ (Nat.le_max_right _ _)
  have htake : (entered ++ [e]).take t = entered.take t := List.take_append_of_le_length ht.2
  rw [← htake]
  exact Finset.le_sup
    (f := fun t => g.windowAffinity (((entered ++ [e]).take t).rtake (window + 1)) v) hmem

-- Before a vertex leaves, the window is wider by one, and its affinity counts for the peak.
theorem windowAffinity_le_peak (g : Digraph) (window : Nat) (entered : List Vertex) (e v : Vertex) :
    g.windowAffinity (entered.rtake window ++ [e]) v ≤ g.peak window (entered ++ [e]) v := by
  have hmem : entered.length + 1 ∈ Finset.Icc 1 (entered ++ [e]).length := by
    rw [Finset.mem_Icc, List.length_append, List.length_singleton]
    omega
  have hall : (entered ++ [e]).take (entered.length + 1) = entered ++ [e] :=
    List.take_of_length_le (by rw [List.length_append, List.length_singleton])
  have hle := Finset.le_sup
    (f := fun t => g.windowAffinity (((entered ++ [e]).take t).rtake (window + 1)) v) hmem
  rw [hall, List.rtake_concat_succ] at hle
  exact Nat.le_trans hle (Nat.le_max_right _ _)

end Digraph

end LocalityOrder
