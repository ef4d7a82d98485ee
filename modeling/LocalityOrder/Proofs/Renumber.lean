import LocalityOrder.Digraph.Renumber
import LocalityOrder.Proofs.Affinity
import LocalityOrder.Proofs.Renumbering.Ids

/-!
# Renumbered graphs

A graph can be renumbered if its edges lead to vertices of its own, and then the targets of a new id
are the new ids of the targets of the old one.  All that is proved about renumbered graphs follows
from this: renumberings act on graphs, and what is counted along the edges is carried along.
-/

namespace LocalityOrder

namespace Digraph

variable {g h k : Digraph} {p q r : Renumbering} {n v w : Nat}

theorem targets_ofLists_map (f : Vertex → List Vertex) (hv : v < n) :
    (ofLists ((Vertex.all n).map f)).targets v = f v := by
  show (((Vertex.all n).map f).toArray[v]?).getD [] = f v
  rw [List.getElem?_toArray, List.getElem?_map, Vertex.all, List.getElem?_range hv]
  rfl

theorem neighbors_eq_ok_iff {list : List Vertex} :
    g.neighbors v = .ok list ↔ v < g.size ∧ g.targets v = list := by
  by_cases hv : v < g.size
  · rw [neighbors_of_lt hv]
    simp [hv]
  · have hnone : g.neighbors v = .error .indexOutOfBounds :=
      Table.get_eq_error_iff.mpr ⟨Nat.not_lt.mp hv, rfl⟩
    rw [hnone]
    simp [hv]

/-! ## The targets of a new id -/

theorem mapM_newOf_targets (hrange : g.InRange) (hsize : p.size = g.size) (v : Nat) :
    (g.targets v).mapM p.newOf = .ok ((g.targets v).map p.toNew) := by
  apply mapM_eq_ok
  intro w hw
  exact Renumbering.newOf_of_lt (hsize ▸ inRange_iff.mp hrange v w hw)

theorem renumberedTargets_eq (hrange : g.InRange) (hsize : p.size = g.size) (hv : v < g.size) :
    g.renumberedTargets p v = .ok ((g.targets v).map p.toNew) := by
  rw [renumberedTargets, neighbors_of_lt hv, ok_bind, mapM_newOf_targets hrange hsize]

theorem renumber_eq (hrange : g.InRange) (hsize : p.size = g.size) :
    g.renumber p = .ok (ofLists ((Vertex.all p.size).map fun v =>
      (g.targets (p.toOld v)).map p.toNew)) := by
  have hlists : ((Vertex.all p.size).map p.toOld).mapM (g.renumberedTargets p) =
      .ok (((Vertex.all p.size).map p.toOld).map fun v => (g.targets v).map p.toNew) := by
    apply mapM_eq_ok
    intro v hv
    obtain ⟨w, hw, rfl⟩ := List.mem_map.mp hv
    apply renumberedTargets_eq hrange hsize
    rw [← hsize]
    exact Renumbering.toOld_lt (Vertex.mem_all.mp hw)
  rw [renumber, if_pos hsize, p.toList_newToOld, hlists, ok_bind, List.map_map]
  rfl

-- Every list of the graph is read when it is renumbered, so every edge is checked.
theorem inRange_of_renumber (hg : g.renumber p = .ok h) : p.size = g.size ∧ g.InRange := by
  unfold renumber at hg
  split at hg
  case isFalse => cases hg
  case isTrue hsize =>
    refine ⟨hsize, inRange_iff.mpr fun v w hw => ?_⟩
    obtain ⟨lists, hlists, -⟩ := bind_eq_ok_iff.mp hg
    have hv : v < p.size := hsize ▸ lt_size_of_mem_targets hw
    have hmem : v ∈ p.newToOld.toList := by
      rw [p.toList_newToOld]
      have hnew : p.toNew v ∈ Vertex.all p.size := Vertex.mem_all.mpr (p.toNew_lt_iff.mpr hv)
      exact List.mem_map.mpr ⟨p.toNew v, hnew, p.toOld_toNew v⟩
    obtain ⟨list, hlist⟩ := exists_of_mapM_eq_ok hlists v hmem
    rw [renumberedTargets, neighbors_of_lt (hsize ▸ hv), ok_bind] at hlist
    obtain ⟨new, hnew⟩ := exists_of_mapM_eq_ok hlist w hw
    exact hsize ▸ (Renumbering.newOf_eq_ok_iff.mp hnew).1

/-- What renumbering a graph gives, if it gives anything. -/
theorem renumber_eq_ok_iff :
    g.renumber p = .ok h ↔ p.size = g.size ∧ g.InRange ∧ h.size = g.size ∧
      ∀ v : Nat, h.targets v = (g.targets (p.toOld v)).map p.toNew := by
  by_cases hvalid : p.size = g.size ∧ g.InRange
  · obtain ⟨hsize, hrange⟩ := hvalid
    rw [renumber_eq hrange hsize, Except.ok.injEq]
    have hlength : ((Vertex.all p.size).map fun v => (g.targets (p.toOld v)).map p.toNew).length =
        g.size := by
      rw [List.length_map, Vertex.length_all, hsize]
    constructor
    · rintro rfl
      refine ⟨hsize, hrange, hlength, fun v => ?_⟩
      by_cases hv : v < p.size
      · exact targets_ofLists_map _ hv
      · rw [targets_of_le (by rw [size_ofLists]; omega), Renumbering.toOld_of_le (by omega),
          targets_of_le (by omega), List.map_nil]
    · rintro ⟨-, -, hsize', htargets⟩
      apply ext_targets
      · rw [size_ofLists, hlength, hsize']
      · intro v hv
        rw [size_ofLists, hlength, ← hsize] at hv
        rw [targets_ofLists_map _ hv, htargets]
  · constructor
    · intro hg
      exact absurd (inRange_of_renumber hg) hvalid
    · rintro ⟨hsize, hrange, -⟩
      exact absurd ⟨hsize, hrange⟩ hvalid

theorem of_renumber (hg : g.renumber p = .ok h) :
    p.size = g.size ∧ g.InRange ∧ h.size = g.size ∧
      ∀ v : Nat, h.targets v = (g.targets (p.toOld v)).map p.toNew := renumber_eq_ok_iff.mp hg

theorem exists_renumber (hrange : g.InRange) (hsize : p.size = g.size) :
    ∃ h, g.renumber p = .ok h := ⟨_, renumber_eq hrange hsize⟩

theorem targets_of_renumber (hg : g.renumber p = .ok h) (v : Nat) :
    h.targets (p.toNew v) = (g.targets v).map p.toNew := by
  rw [(of_renumber hg).2.2.2, p.toOld_toNew]

theorem inRange_renumber (hg : g.renumber p = .ok h) : h.InRange := by
  obtain ⟨hsize, hrange, hsize', htargets⟩ := of_renumber hg
  rw [inRange_iff] at hrange ⊢
  intro v w hw
  rw [htargets] at hw
  obtain ⟨u, hu, rfl⟩ := List.mem_map.mp hw
  rw [hsize', ← hsize, p.toNew_lt_iff, hsize]
  exact hrange _ u hu

/-! ## The action -/

theorem renumber_identity (hrange : g.InRange) : g.renumber (.identity g.size) = .ok g := by
  rw [renumber_eq_ok_iff]
  refine ⟨by simp, hrange, rfl, fun v => ?_⟩
  have hid : (Renumbering.identity g.size).toNew = id := funext (Renumbering.toNew_identity g.size)
  rw [Renumbering.toOld_identity, hid, List.map_id]

theorem renumber_andThen (hg : g.renumber p = .ok h) (hpq : p.andThen q = .ok r)
    (hsize : p.size = q.size) : h.renumber q = g.renumber r := by
  obtain ⟨hp, hrange, hsize', htargets⟩ := of_renumber hg
  obtain ⟨r', hr', hsizer, hold⟩ := Renumbering.exists_andThen hsize
  cases hr'.symm.trans hpq
  obtain ⟨k, hk⟩ := exists_renumber (p := r) hrange (by omega)
  obtain ⟨-, -, hsizek, htargetsk⟩ := of_renumber hk
  rw [hk, renumber_eq_ok_iff]
  refine ⟨by omega, inRange_renumber hg, by omega, fun v => ?_⟩
  have hnew : r.toNew = q.toNew ∘ p.toNew := funext (Renumbering.toNew_of_toOld hold)
  rw [htargetsk, htargets, hold, hnew, List.map_map]

theorem renumber_inverse (hg : g.renumber p = .ok h) : h.renumber p.inverse = .ok g := by
  obtain ⟨hsize, hrange, hsize', htargets⟩ := of_renumber hg
  rw [renumber_eq_ok_iff]
  refine ⟨?_, inRange_renumber hg, hsize'.symm, fun v => ?_⟩
  · rw [p.size_inverse, hsize, hsize']
  · have hback : p.inverse.toNew ∘ p.toNew = id := funext p.toOld_toNew
    rw [htargets, List.map_map, hback, List.map_id, p.toOld_inverse, p.toOld_toNew]

/-! ## What is counted along the edges -/

theorem multiplicity_of_renumber (hg : g.renumber p = .ok h) (v w : Nat) :
    h.multiplicity (p.toNew v) (p.toNew w) = g.multiplicity v w := by
  rw [multiplicity, targets_of_renumber hg, List.count_map_of_injective _ _ p.toNew_injective]
  rfl

theorem outDegree_of_renumber (hg : g.renumber p = .ok h) (v : Nat) :
    h.outDegree (p.toNew v) = g.outDegree v := by
  rw [outDegree, targets_of_renumber hg, List.length_map]
  rfl

-- A sum over all vertices does not depend on their numbers.
theorem sum_of_renumber (hg : g.renumber p = .ok h) {f f' : Vertex → Nat}
    (hf : ∀ v, f' (p.toNew v) = f v) :
    ((Vertex.all h.size).map f').sum = ((Vertex.all g.size).map f).sum := by
  obtain ⟨hsize, -, hsize', -⟩ := of_renumber hg
  have hf' : f' = f ∘ p.toOld := funext fun v => by rw [Function.comp, ← hf, p.toNew_toOld]
  rw [hf', hsize', ← hsize, ← List.map_map]
  exact (p.map_toOld_perm.map f).sum_eq

theorem inDegree_of_renumber (hg : g.renumber p = .ok h) (v : Nat) :
    h.inDegree (p.toNew v) = g.inDegree v :=
  sum_of_renumber hg fun u => multiplicity_of_renumber hg u v

theorem edgeCount_of_renumber (hg : g.renumber p = .ok h) : h.edgeCount = g.edgeCount := by
  rw [h.edgeCount_eq_sum, g.edgeCount_eq_sum]
  exact sum_of_renumber hg (outDegree_of_renumber hg)

theorem traffic_of_renumber (hg : g.renumber p = .ok h) (v : Nat) :
    h.traffic (p.toNew v) = g.traffic v := by
  have hsum : ((Vertex.all h.size).map fun u => h.multiplicity u (p.toNew v) * h.outDegree u).sum =
      ((Vertex.all g.size).map fun u => g.multiplicity u v * g.outDegree u).sum := by
    apply sum_of_renumber hg
    intro u
    rw [multiplicity_of_renumber hg, outDegree_of_renumber hg]
  rw [traffic, traffic, inDegree_of_renumber hg, outDegree_of_renumber hg, hsum]

end Digraph

end LocalityOrder
