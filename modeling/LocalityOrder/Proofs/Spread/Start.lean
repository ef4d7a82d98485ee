import LocalityOrder.Proofs.Placement.Run
import LocalityOrder.Proofs.RankedList.Seniority
import LocalityOrder.Proofs.Spread.RankedList

/-!
# Starts of spread graphs

As long as vertices are only set aside, the list is known from the graph alone: the other vertices
lie by descending in-degree and then by id, each with its in-degree as its key and as its pending
decrease.  Over a spread graph it is therefore the same list with other names, whichever vertices
without edges lie between.
-/

namespace LocalityOrder

/-! ## The list before anything is counted -/

namespace Digraph

/-- The first vertex has more edges into it, or as many and is smaller. -/
def Outranks (g : Digraph) (v w : Vertex) : Prop :=
  g.inDegree w < g.inDegree v ∨ g.inDegree w = g.inDegree v ∧ v < w

variable {g g' : Digraph} {f : Vertex → Vertex} {v w : Vertex}

instance : Std.Irrefl g.Outranks where
  irrefl _ h := h.elim (Nat.lt_irrefl _) fun h => Nat.lt_irrefl _ h.2

instance : Std.Antisymm g.Outranks where
  antisymm v w h h' := by
    rcases h with hlt | ⟨heq, hvw⟩
    · rcases h' with hlt' | ⟨heq', -⟩
      · omega
      · omega
    · rcases h' with hlt' | ⟨-, hwv⟩
      · omega
      · exact absurd (hvw.trans hwv) (Nat.lt_irrefl v)

theorem Spread.outranks_iff (h : Spread g g' f) : g'.Outranks (f v) (f w) ↔ g.Outranks v w := by
  unfold Outranks
  rw [h.inDegree, h.inDegree, h.strictMono.lt_iff_lt]

end Digraph

namespace RankedList

/-- The list of all vertices but those set aside, before anything is counted. -/
structure Begun (g : Digraph) (aside : List Vertex) (r : RankedList) : Prop where
  wellFormed : r.WellFormed
  size : r.removed.size = g.size
  keyOf : ∀ v, r.keyOf v = g.inDegree v
  pendingOf : ∀ v, r.pendingOf v = if v ∈ aside then 1073741823 else -(g.inDegree v : Int)
  mem_order_iff : ∀ v, v ∈ r.order ↔ v < g.size ∧ v ∉ aside
  ranked : r.order.Pairwise g.Outranks

variable {g g' : Digraph} {r r' : RankedList} {f : Vertex → Vertex} {aside aside' : List Vertex}
  {u v : Vertex}

-- A count that is read as a score without a sign is below the limit of scores.
theorem inDegree_lt_of_starting (hcount : g.edgeCount ≤ 4294967295) (hr : starting g = .ok r)
    (hv : v < g.size) : g.inDegree v < 2147483648 := by
  obtain ⟨r₀, hnew, hr₁⟩ := bind_eq_ok_iff.mp hr
  obtain ⟨r₁, hassign, -⟩ := bind_eq_ok_iff.mp hr₁
  obtain ⟨hwf₀, horder₀, -⟩ := of_new hnew
  obtain ⟨-, -, -, hkeys⟩ := hwf₀.of_assignKeys hassign
  obtain ⟨k, hk, hnonneg, -⟩ := hkeys v (horder₀ ▸ Vertex.mem_all.mpr hv)
  have hscore : (Table.ofList (((Vertex.all g.size).map g.inDegree).map Score.ofCount))[v]? =
      some (Score.ofCount (g.inDegree v)) := by
    rw [← getElem?_scores g hv]
    exact List.getElem?_toArray
  rw [hscore, Option.some_inj] at hk
  have hle := (g.inDegree_le_edgeCount v).trans hcount
  have hmod : g.inDegree v % 4294967296 = g.inDegree v := Nat.mod_eq_of_lt (by omega)
  rw [← hk] at hnonneg
  simp only [Score.ofCount, hmod] at hnonneg
  split at hnonneg
  next hlt => exact hlt
  next =>
    have hneg : (0 : Int) ≤ (g.inDegree v : Int) - 4294967296 := hnonneg
    omega

namespace Begun

theorem of_starting (hrange : g.InRange) (hcount : g.edgeCount ≤ 4294967295)
    (hr : starting g = .ok r) : r.Begun g [] := by
  obtain ⟨hwf, hremoved, hkey, hpending⟩ := RankedList.of_starting hrange hcount hr
  obtain ⟨r₀, hnew, hr₁⟩ := bind_eq_ok_iff.mp hr
  obtain ⟨r₁, hassign, hr₂⟩ := bind_eq_ok_iff.mp hr₁
  have hwf₀ := (of_new hnew).1
  obtain ⟨hwf₁, hremoved₁, -, -⟩ := hwf₀.of_assignKeys hassign
  obtain ⟨-, horder, -, hkeys, -⟩ := hwf₁.of_negated hr₂
  refine ⟨hwf, by rw [hremoved, Table.size_filled], hkey, fun v => ?_, fun v => ?_, ?_⟩
  · rw [hpending, if_neg List.not_mem_nil]
  · rw [hwf.mem_order_iff, hremoved, Table.getElem?_filled]
    simp
  · -- all keys were assigned at one instant, so those with the same key lie by id
    have hsenior : r₁.Senior [r₀.live] := .of_assignKeys hassign
    have hmem : ∀ v ∈ r₁.order, v ∈ r₀.live := fun v hv =>
      hwf₀.mem_live.mpr ((hwf₀.mem_congr hwf₁ hremoved₁).mp hv)
    have hkey₁ : ∀ v, r₁.keyOf v = g.inDegree v := fun v => by
      rw [← hkey v, RankedList.keyOf, RankedList.keyOf, hkeys]
    rw [horder]
    refine (hsenior.pairwise hwf₁).imp_of_mem fun {v w} hv hw hvw => ?_
    rw [hkey₁, hkey₁] at hvw
    refine hvw.imp id fun hsame => ⟨hsame.1, ?_⟩
    rcases hsame.2 with hlt | ⟨-, hlt⟩
    · rw [KeyLog.setAt_cons_of_mem (hmem v hv), KeyLog.setAt_cons_of_mem (hmem w hw)] at hlt
      exact absurd hlt (Nat.lt_irrefl _)
    · exact hlt

theorem setAside (h : r.Begun g aside) (hr : r.setAside v = .ok r') :
    r'.Begun g (aside ++ [v]) := by
  obtain ⟨hwf, horder, hsize, hkeys, hpending⟩ := h.wellFormed.of_setAside hr
  refine ⟨hwf, hsize.trans h.size, fun w => ?_, fun w => ?_, fun w => ?_, ?_⟩
  · rw [RankedList.keyOf, hkeys]
    exact h.keyOf w
  · rw [hpending, h.pendingOf]
    simp only [List.mem_append, List.mem_singleton]
    by_cases hw : w = v
    · simp only [hw, or_true, if_true]
    · simp only [hw, or_false, if_false]
  · rw [horder, h.wellFormed.nodup.mem_erase_iff, h.mem_order_iff, List.mem_append,
      List.mem_singleton]
    tauto
  · rw [horder]
    exact h.ranked.sublist List.erase_sublist

theorem foldlM_setAside {l : List Vertex} (h : r.Begun g aside)
    (hr : l.foldlM RankedList.setAside r = .ok r') : r'.Begun g (aside ++ l) := by
  induction l generalizing r aside with
  | nil =>
    cases hr
    rwa [List.append_nil]
  | cons v rest ih =>
    rw [List.foldlM_cons] at hr
    obtain ⟨r₁, hstep, hrest⟩ := bind_eq_ok_iff.mp hr
    have hall := ih (h.setAside hstep) hrest
    rwa [List.append_assoc, List.singleton_append] at hall

/-- What begins over a spread graph is the same list with other names. -/
theorem spread (h : r.Begun g aside) (h' : r'.Begun g' aside') (hg : g.Spread g' f)
    (haside : ∀ v, v < g.size → (f v ∈ aside' ↔ v ∈ aside))
    (hrest : ∀ u, u < g'.size → u ∉ aside' → ∃ v, v < g.size ∧ f v = u) :
    RankedList.Spread f g.size r r' where
  wellFormed := h.wellFormed
  wellFormed' := h'.wellFormed
  size := h.size
  order := by
    refine h'.ranked.eq_of_mem_iff (h.ranked.map f fun v w hvw => hg.outranks_iff.mpr hvw)
      fun u => ?_
    rw [h'.mem_order_iff, List.mem_map]
    constructor
    · rintro ⟨hu, hnot⟩
      obtain ⟨v, hv, rfl⟩ := hrest u hu hnot
      exact ⟨v, (h.mem_order_iff v).mpr ⟨hv, (haside v hv).not.mp hnot⟩, rfl⟩
    · rintro ⟨v, hv, rfl⟩
      obtain ⟨hlt, hnot⟩ := (h.mem_order_iff v).mp hv
      exact ⟨hg.lt_size v hlt, (haside v hlt).not.mpr hnot⟩
  lt_size v hv := h'.size.symm ▸ hg.lt_size v hv
  keyOf v _ := by rw [h'.keyOf, h.keyOf, hg.inDegree]
  pendingOf v hv := by
    rw [h'.pendingOf, h.pendingOf, hg.inDegree]
    simp only [haside v hv]

end Begun

end RankedList

/-! ## The first vertex -/

namespace Placement

variable {g g' : Digraph} {f : Vertex → Vertex} {t t' : Transpose} {s s' : Placement}
  {v v' : Vertex}

theorem ComesFirst.spread (hg : g.Spread g' f) (hrange : g.InRange)
    (h : ComesFirst g ((Vertex.all g.size).filter (¬ g.IsIsolated ·)) v) :
    ComesFirst g' ((Vertex.all g'.size).filter (¬ g'.IsIsolated ·)) (f v) := by
  have hmem : ∀ {g : Digraph} {u : Vertex},
      u ∈ (Vertex.all g.size).filter (¬ g.IsIsolated ·) ↔ u < g.size ∧ ¬ g.IsIsolated u := by
    intro g u
    rw [List.mem_filter, Vertex.mem_all, decide_eq_true_eq]
  obtain ⟨hv, hbest⟩ := h
  obtain ⟨hlt, hedge⟩ := hmem.mp hv
  refine ⟨hmem.mpr ⟨hg.lt_size v hlt, hg.isIsolated_iff.not.mpr hedge⟩, fun u hu => ?_⟩
  obtain ⟨w, hw, hwedge, rfl⟩ := hg.exists_of_not_isIsolated hrange (hmem.mp hu).2
  rw [hg.inDegree, hg.inDegree, hg.strictMono.le_iff_le]
  exact hbest w (hmem.mpr ⟨hw, hwedge⟩)

-- Two starts place the same first vertex, up to its name.
theorem Starts.order_eq (hg : g.Spread g' f) (hrange : g.InRange) (h : Starts g s)
    (h' : Starts g' s') : s'.order.toList = s.order.toList.map f := by
  rcases h with ⟨horder, hall⟩ | ⟨v, horder, hfirst⟩
  · rcases h' with ⟨horder', -⟩ | ⟨v', -, hfirst'⟩
    · rw [horder, horder']
      rfl
    · -- a vertex with edges would stand for one
      obtain ⟨-, hedge⟩ := List.mem_filter.mp hfirst'.1
      rw [decide_eq_true_eq] at hedge
      obtain ⟨w, hw, hwedge, -⟩ := hg.exists_of_not_isIsolated hrange hedge
      exact absurd (hall w hw) hwedge
  · have hspread := hfirst.spread hg hrange
    rcases h' with ⟨-, hall'⟩ | ⟨v', horder', hfirst'⟩
    · obtain ⟨hmem, hedge⟩ := List.mem_filter.mp hspread.1
      rw [decide_eq_true_eq] at hedge
      exact absurd (hall' (f v) (Vertex.mem_all.mp hmem)) hedge
    · rw [horder, horder', hfirst'.unique hspread]
      rfl

end Placement

end LocalityOrder
