import LocalityOrder.Proofs.Layout

/-!
# Near-greedy layouts

A layout would be greedy if each vertex had the best score of all that are still to be placed.  It
is not, since only half of a pending decrease is folded at a time, but a vertex can come before a
better one only by half of how far its own score has dropped.
-/

namespace LocalityOrder

namespace RankedList

variable {g : Digraph} {r : RankedList} {window : Nat} {entered rest : List Vertex} {v w : Vertex}

/-- The head of a settled list lies below another element by at most half of how far its score is
below its peak. -/
theorem Tracks.two_mul_le_of_settled (h : r.Tracks g window entered) (hwf : r.WellFormed)
    (hsettled : r.Settled) (horder : r.order = v :: rest)
    (hnodup : ∀ u, u < g.size → (g.targets u).Nodup) (hw : w ∈ rest) :
    2 * g.windowAffinity (entered.rtake window) w ≤
      g.windowAffinity (entered.rtake window) v + g.peak window entered v := by
  have hlive : ∀ u ∈ r.order, r.IsLive u := fun u hu => (isLive_iff hwf).mpr hu
  have hv := hlive v (horder ▸ List.mem_cons_self)
  have hw' := hlive w (horder ▸ List.mem_cons_of_mem v hw)
  have hscore : ∀ u, r.IsLive u →
      r.keyOf u + r.pendingOf u = g.windowAffinity (entered.rtake window) u := fun u hu => by
    have hu' := h.score u hu
    rw [Digraph.deficit_of_nodup hnodup] at hu'
    unfold RankedList.score at hu'
    omega
  have hscorev := hscore v hv
  have hscorew := hscore w hw'
  have hpendingw := h.pending_nonpos w hw'
  have hpeak := h.key_le_peak v hv
  obtain ⟨hkey, hfold⟩ := hsettled v rest horder w hw
  -- without a pending decrease, the key is the score and no other key is above it
  by_cases hneg : r.pendingOf v < 0
  · have hfolded := hfold hneg
    have hhalf := two_mul_foldedKey_le (r.keyOf v) (Int.le_of_lt hneg) (by omega)
    omega
  · have hpendingv := h.pending_nonpos v hv
    omega

end RankedList

namespace Digraph

open Placement (Holds)

variable {g : Digraph} {settings : Settings} {p : Renumbering} {v w : Vertex}

/-- The affinity of `v` to the `window` vertices that come before the place `t` of an order. -/
def scoreAt (g : Digraph) (order : List Vertex) (window t : Nat) (v : Vertex) : Nat :=
  g.windowAffinity ((order.take t).rtake window) v

-- Before a place of an order, the peak is that of the scores at this place and before it.
theorem peak_take {order : List Vertex} {i : Nat} (hi : i ≤ order.length) (window : Nat)
    (v : Vertex) :
    g.peak window (order.take i) v = max (g.inDegree v)
      ((Finset.Icc 1 i).sup fun t => g.scoreAt order (window + 1) t v) := by
  unfold peak scoreAt
  rw [List.length_take, Nat.min_eq_left hi]
  congr 1
  apply Finset.sup_congr rfl
  intro t ht
  rw [List.take_take, Nat.min_eq_left (Finset.mem_Icc.mp ht).2]

-- The queue from which the vertex at place `i` is taken holds what is placed later.
theorem exists_takeBest_of_localityOrder (h : g.localityOrder settings = .ok p) {i : Nat}
    (hi : 1 ≤ i) (hlt : i < g.connected.length) (hv : p.newToOld.toList[i]? = some v) :
    ∃ r r' : RankedList, r.WellFormed ∧ r.Tracks g settings.window (p.newToOld.toList.take i) ∧
      r.takeBest = .ok (v, r') ∧ ∀ j w, i < j → j < g.connected.length →
        p.newToOld.toList[j]? = some w → w ∈ r.order := by
  obtain ⟨t, s, ht, hw, hs, horder⟩ := of_localityOrder h
  have hof := Transpose.isOf_of_ofDigraph ht
  obtain ⟨s₀, hstart, hadvance⟩ := bind_eq_ok_iff.mp hs
  obtain ⟨hstarts, r₀, hholds⟩ := Placement.of_start hof hstart
  have h₀ := hholds settings.window
  rcases hstarts with ⟨-, hall⟩ | ⟨v₀, hfirst, -⟩
  · have hnone : g.connected = [] := List.filter_eq_nil_iff.mpr fun u hu => by
      simpa using hall u (Vertex.mem_all.mp hu)
    rw [hnone] at hlt
    exact absurd hlt (Nat.not_lt_zero i)
  · have hone : s₀.order.toList = [] ++ [v₀] := by rw [hfirst]; rfl
    have hsize₀ : s₀.order.size = 1 := by rw [hfirst]; rfl
    obtain ⟨_, _, r', h', -, -, hsize, hisolated⟩ := h₀.of_advance hof hw hone hadvance
    obtain ⟨_, _, -, -, _, _, hcomplete, hempty⟩ := Placement.Reached.of_complete hof hw hs
    have hplaced := length_order_of_empty hcomplete hempty
    rw [Array.length_toList] at hplaced
    -- the loop places the vertex at `i` after `i - 1` others, and more of them follow
    obtain ⟨count, rfl⟩ := Nat.exists_eq_add_of_le' hi
    obtain ⟨more, hmore⟩ : ∃ more, g.size - s₀.isolated.size - s₀.order.size =
        count + (more + 1) := ⟨g.connected.length - 1 - count - 1, by omega⟩
    rw [hmore] at hadvance
    obtain ⟨s₁, r₁, u, r₂, h₁, htake, hsize₁, hprefix₁, hisolated₁⟩ :=
      h₀.exists_placed hof hw hone hadvance
    have hplaces : p.newToOld.toList = s.order.toList ++ s.isolated.toList := horder
    obtain ⟨later, hlater⟩ := hprefix₁
    have hfull : p.newToOld.toList = s₁.order.toList ++ u :: (later ++ s.isolated.toList) := by
      rw [hplaces, ← hlater]
      simp
    have hcount : s₁.order.toList.length = count + 1 := by
      rw [Array.length_toList, hsize₁, hsize₀, Nat.add_comm]
    have hu : u = v := by
      rw [hfull, List.getElem?_append_right (Nat.le_of_eq hcount), hcount, Nat.sub_self,
        List.getElem?_cons_zero, Option.some_inj] at hv
      exact hv
    subst hu
    refine ⟨r₁, r₂, h₁.represents.wellFormed, ?_, htake, fun j w hj hjlt hjw => ?_⟩
    · rw [hfull, ← hcount, List.take_left]
      exact h₁.tracks
    · have hjs : s.order.toList[j]? = some w := by
        rwa [hplaces, List.getElem?_append_left (by rw [Array.length_toList]; omega)] at hjw
      have hbegins : s₁.order.toList <+: s.order.toList := by
        rw [← hlater, List.append_assoc]
        exact List.prefix_append _ _
      rw [Array.length_toList] at hcount
      exact h₁.mem_order_of_later h' hbegins (hisolated₁.trans hisolated.symm) (by omega) hjs

-- A vertex comes before another one by at most half of how far its score is below its peak.
theorem two_mul_windowAffinity_le (hnodup : ∀ u, u < g.size → (g.targets u).Nodup)
    (h : g.localityOrder settings = .ok p) {i j : Nat} (hi : 1 ≤ i) (hij : i < j)
    (hj : j < g.connected.length) (hv : p.newToOld.toList[i]? = some v)
    (hw : p.newToOld.toList[j]? = some w) :
    2 * g.windowAffinity ((p.newToOld.toList.take i).rtake settings.window) w ≤
      g.windowAffinity ((p.newToOld.toList.take i).rtake settings.window) v +
        g.peak settings.window (p.newToOld.toList.take i) v := by
  obtain ⟨r, r', hwf, htracks, htake, hlater⟩ :=
    exists_takeBest_of_localityOrder h hi (hij.trans hj) hv
  obtain ⟨q, rest, hq, hfolded, hsettled, horder, -⟩ := hwf.of_takeBest htake
  have hmem : w ∈ q.order := (hwf.mem_congr hq hfolded.removed).mpr (hlater j w hij hj hw)
  obtain ⟨-, -, -, hperm, -⟩ := exists_placed h
  have hne : w ≠ v := by
    rintro rfl
    have hvlt := (List.getElem?_eq_some_iff.mp hv).1
    have heq := (List.getElem?_inj hvlt (hperm.nodup_iff.mpr List.nodup_range)).mp
      (hv.trans hw.symm)
    omega
  rw [horder, List.mem_cons] at hmem
  exact (htracks.folded hfolded).two_mul_le_of_settled hq hsettled horder hnodup
    (hmem.resolve_left hne)

/-- Where no list repeats a vertex, a vertex comes before a better one by at most half of how far
its score has dropped from its in-degree or from the largest score that it had before. -/
theorem localityOrder_near_greedy (hnodup : ∀ u, u < g.size → (g.targets u).Nodup)
    (h : g.localityOrder settings = .ok p) {i j : Nat} (hi : 1 ≤ i) (hij : i < j)
    (hj : j < g.connected.length) (hv : p.newToOld[i]? = some v) (hw : p.newToOld[j]? = some w) :
    2 * g.scoreAt p.newToOld.toList settings.window i w ≤
      g.scoreAt p.newToOld.toList settings.window i v + max (g.inDegree v)
        ((Finset.Icc 1 i).sup fun t =>
          g.scoreAt p.newToOld.toList (settings.window + 1) t v) := by
  have hat : ∀ i : Nat, p.newToOld[i]? = p.newToOld.toList[i]? := fun i =>
    Array.getElem?_toList.symm
  rw [hat] at hv hw
  rw [← peak_take (Nat.le_of_lt (List.getElem?_eq_some_iff.mp hv).1)]
  exact two_mul_windowAffinity_le hnodup h hi hij hj hv hw

set_option maxRecDepth 100000 in
/-- Vertex 3 comes before vertex 0, which has the better score, and by as much as is allowed. -/
theorem localityOrder_near_greedy_of_overtaking :
    ∃ p, (ofLists [[1], [1], [3], [3]]).localityOrder ⟨1⟩ = .ok p ∧
      p.newToOld.toList = [1, 3, 2, 0] ∧
      (ofLists [[1], [1], [3], [3]]).scoreAt p.newToOld.toList 1 1 3 = 0 ∧
      (ofLists [[1], [1], [3], [3]]).scoreAt p.newToOld.toList 1 1 0 = 1 ∧
      2 * (ofLists [[1], [1], [3], [3]]).scoreAt p.newToOld.toList 1 1 0 ≤
        (ofLists [[1], [1], [3], [3]]).scoreAt p.newToOld.toList 1 1 3 +
          max ((ofLists [[1], [1], [3], [3]]).inDegree 3) ((Finset.Icc 1 1).sup fun t =>
            (ofLists [[1], [1], [3], [3]]).scoreAt p.newToOld.toList 2 t 3) := by
  obtain ⟨p, hp, horder⟩ := exists_eq_ok (b := [1, 3, 2, 0]) (f := fun p => p.newToOld.toList)
    (x := (ofLists [[1], [1], [3], [3]]).localityOrder ⟨1⟩) (by cbv)
  have hat : ∀ i : Nat, p.newToOld[i]? = [1, 3, 2, 0][i]? := fun i =>
    horder ▸ Array.getElem?_toList.symm
  refine ⟨p, hp, horder, by rw [horder]; decide, by rw [horder]; decide, ?_⟩
  exact localityOrder_near_greedy (i := 1) (j := 3) (by decide) hp (by decide) (by decide)
    (by decide) (hat 1) (hat 3)

end Digraph

end LocalityOrder
