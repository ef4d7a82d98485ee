import LocalityOrder.Proofs.Placement.Survey
import LocalityOrder.Proofs.RunQueue.Extract

/-!
# The run of a placement

Between any two steps of a placement its vertices, those without edges and the elements of the queue
are all vertices, each once, and the scores are those of the vertices that have entered the window.
Each step keeps this, so it holds at every state that is reached, and within the limits on the
traffic every step succeeds.
-/

namespace LocalityOrder

namespace Placement

open RunQueue (Represents)

/-- What holds between the steps of a placement, once the vertices in `entered` have entered the
window. -/
structure Holds (g : Digraph) (window : Nat) (entered : List Vertex) (s : Placement)
    (r : RankedList) : Prop where
  represents : s.scores.queue.Represents r
  size : r.removed.size = g.size
  skipped : s.scores.skipped = .filled g.size false
  isolated : s.isolated.toList = (Vertex.all g.size).filter (g.IsIsolated ·)
  perm : (s.order.toList ++ s.isolated.toList ++ r.order).Perm (Vertex.all g.size)
  tracks : r.Tracks g window entered
  bounded : r.Bounded g window entered

variable {g : Digraph} {t : Transpose} {s s' : Placement} {r r' : RankedList} {e v : Vertex}
  {window : Nat} {entered : List Vertex}

-- Placing an element takes it from the live vertices to the placed ones.
theorem perm_place (order : List Vertex) {isolated live : List Vertex} (hv : v ∈ live) :
    ((order ++ [v]) ++ isolated ++ live.erase v).Perm (order ++ isolated ++ live) := by
  calc (order ++ [v]) ++ isolated ++ live.erase v
      = order ++ v :: (isolated ++ live.erase v) := by simp
    _ |>.Perm (order ++ (isolated ++ v :: live.erase v)) :=
        List.Perm.append_left order List.perm_middle.symm
    _ |>.Perm (order ++ (isolated ++ live)) :=
        List.Perm.append_left order (List.Perm.append_left isolated (List.perm_cons_erase hv).symm)
    _ = order ++ isolated ++ live := (List.append_assoc _ _ _).symm

namespace Holds

theorem nodup (h : Holds g window entered s r) :
    (s.order.toList ++ s.isolated.toList ++ r.order).Nodup :=
  h.perm.nodup_iff.mpr List.nodup_range

theorem nodup_order (h : Holds g window entered s r) : s.order.toList.Nodup :=
  (h.nodup.sublist (List.sublist_append_left _ _)).sublist (List.sublist_append_left _ _)

theorem lt_size (h : Holds g window entered s r) (hv : v ∈ s.order.toList) : v < g.size := by
  refine Vertex.mem_all.mp (h.perm.mem_iff.mp ?_)
  exact List.mem_append_left _ (List.mem_append_left _ hv)

theorem length (h : Holds g window entered s r) :
    s.order.size + s.isolated.size + r.order.length = g.size := by
  have hlength := h.perm.length_eq
  rw [List.length_append, List.length_append, Vertex.length_all] at hlength
  exact hlength

end Holds

/-! ## Placing the first vertex -/

theorem Surveyed.perm (h : Surveyed g (Vertex.all g.size) s r) :
    (s.isolated.toList ++ r.order).Perm (Vertex.all g.size) := by
  have hnodup : (Vertex.all g.size).Nodup := List.nodup_range
  have hmem : ∀ v, v ∈ s.isolated.toList ↔ v < g.size ∧ g.IsIsolated v := fun v => by
    rw [h.isolated, List.mem_filter, Vertex.mem_all, decide_eq_true_eq]
  refine (List.perm_ext_iff_of_nodup ?_ hnodup).mpr fun v => ?_
  · refine List.nodup_append.mpr ⟨h.isolated ▸ hnodup.filter _, h.represents.wellFormed.nodup, ?_⟩
    rintro v hv _ hv' rfl
    obtain ⟨hlt, hiso⟩ := (hmem v).mp hv
    exact ((h.mem_order_iff v).mp hv').2 ⟨Vertex.mem_all.mpr hlt, hiso⟩
  · rw [List.mem_append, hmem, h.mem_order_iff, Vertex.mem_all]
    by_cases hiso : g.IsIsolated v
    · simp [hiso]
    · simp [hiso]

theorem place_alike (h : s.scores.queue.Represents r) (v : Vertex) :
    Alike (fun s' r' => s'.scores.queue.Represents r' ∧ s'.scores.skipped = s.scores.skipped ∧
        s'.order = s.order.push v ∧ s'.isolated = s.isolated ∧ s'.first = s.first)
      (s.place v) (r.setAside v) := by
  rw [← bind_pure (r.setAside v)]
  apply (setAside_alike h s.scores.skipped v).bind
  intro scores r' h'
  exact .ok ⟨h'.1, h'.2, rfl, rfl, rfl⟩

/-- Nothing has edges, or the vertex that comes first has been placed. -/
def Starts (g : Digraph) (s : Placement) : Prop :=
  s.order = #[] ∧ (∀ v, v < g.size → g.IsIsolated v) ∨
    ∃ v, s.order = #[v] ∧ ComesFirst g ((Vertex.all g.size).filter (¬ g.IsIsolated ·)) v

theorem Surveyed.exists_start (h : Surveyed g (Vertex.all g.size) s r)
    (hs : surveyed g t = .ok s) :
    ∃ s' r', start g t = .ok s' ∧ Starts g s' ∧ (∀ window, Holds g window [] s' r') ∧
      s'.order.toList.foldlM RankedList.setAside r = .ok r' := by
  have hwf := h.represents.wellFormed
  have hfirst := h.first
  unfold start
  rw [hs, ok_bind]
  cases hcase : s.first with
  | none =>
    rw [hcase] at hfirst
    refine ⟨s, r, rfl, .inl ⟨h.order, fun v hv => hfirst v (Vertex.mem_all.mpr hv)⟩,
      fun window => ⟨h.represents, h.size, h.skipped, h.isolated, ?_, h.tracks window,
        h.bounded window⟩, ?_⟩
    · rw [h.order]
      exact h.perm
    · rw [h.order]
      rfl
  | some best =>
    obtain ⟨v, degree⟩ := best
    rw [hcase] at hfirst
    obtain ⟨hmem, hiso⟩ := List.mem_filter.mp hfirst.2.1
    rw [Vertex.mem_all] at hmem
    rw [decide_eq_true_eq] at hiso
    have hv : v ∈ r.order := (h.mem_order_iff v).mpr ⟨hmem, fun hand => hiso hand.2⟩
    obtain ⟨r', hr'⟩ := hwf.exists_setAside (h.size.symm ▸ hmem)
    obtain ⟨-, horder', hsize', -, -⟩ := hwf.of_setAside hr'
    obtain ⟨s', hs', hrep, hskipped, horder, hisolated, -⟩ :=
      (place_alike h.represents v).exists_left hr'
    have horder₁ : s'.order = #[v] := by
      rw [horder, h.order]
      rfl
    refine ⟨s', r', hs', .inr ⟨v, horder₁, hfirst.2⟩, fun window => ⟨hrep, hsize'.trans h.size,
      hskipped.trans h.skipped, hisolated ▸ h.isolated, ?_, (h.tracks window).setAside hwf hr',
      (h.bounded window).setAside hwf hr'⟩, ?_⟩
    · rw [horder₁, horder', hisolated]
      exact (perm_place [] hv).trans h.perm
    · rw [horder₁]
      change r.setAside v >>= pure = .ok r'
      rw [hr', ok_bind, pure_eq_ok]

-- A placement starts wherever the first queue can be built: the vertices without edges are set
-- aside, and then the one that is placed first.
theorem exists_start_of_starting (ht : t.IsOf g) (hr : RankedList.starting g = .ok r) :
    ∃ s r', start g t = .ok s ∧ Starts g s ∧ (∀ window, Holds g window [] s r') ∧
      ((Vertex.all g.size).filter (g.IsIsolated ·) ++ s.order.toList).foldlM
        RankedList.setAside r = .ok r' := by
  obtain ⟨s₁, r₁, hsurveyed, h₁, haside₁⟩ := exists_surveyed ht hr
  obtain ⟨s, r', hs, hstarts, hholds, haside⟩ := h₁.exists_start hsurveyed
  refine ⟨s, r', hs, hstarts, hholds, ?_⟩
  rw [List.foldlM_append, haside₁, ok_bind, haside]

theorem exists_starting_of_start (ht : t.IsOf g) (hs : start g t = .ok s) :
    ∃ r, RankedList.starting g = .ok r := by
  obtain ⟨s₁, hsurveyed, -⟩ := bind_eq_ok_iff.mp hs
  obtain ⟨queue, hqueue, -⟩ := bind_eq_ok_iff.mp hsurveyed
  obtain ⟨r, hr, -⟩ := (startingQueue_alike ht).exists_right hqueue
  exact ⟨r, hr⟩

theorem of_start (ht : t.IsOf g) (hs : start g t = .ok s) :
    Starts g s ∧ ∃ r, ∀ window, Holds g window [] s r := by
  obtain ⟨r, hr⟩ := exists_starting_of_start ht hs
  obtain ⟨s', r', hs', hstarts, hholds, -⟩ := exists_start_of_starting ht hr
  rw [hs, Except.ok.injEq] at hs'
  subst hs'
  exact ⟨hstarts, r', hholds⟩

theorem exists_start (ht : t.IsOf g) (hsize : g.size < RunQueue.capacity)
    (hdegree : ∀ v, g.inDegree v < 2147483648) : ∃ s, start g t = .ok s := by
  obtain ⟨r, hr⟩ := RankedList.exists_starting hsize hdegree
  obtain ⟨s, -, hs, -⟩ := exists_start_of_starting ht hr
  exact ⟨s, hs⟩

/-! ## Sliding the window -/

theorem leaving_eq (s : Placement) (window : Nat) :
    s.leaving window = leavingVertex window s.order.toList := by
  unfold leaving leavingVertex
  rw [Array.length_toList, Array.getElem?_toList]

theorem slide_eq (horder : s.order.toList = entered ++ [e]) (t : Transpose) (window : Nat) :
    s.slide g t window =
      s.scores.slide g t e (leavingVertex window (entered ++ [e])) >>= fun scores =>
        .ok ⟨scores, s.order, s.isolated, s.first⟩ := by
  have hback : s.order.back? = some e := by
    rw [← Array.getLast?_toList, horder, List.getLast?_append, List.getLast?_singleton,
      Option.some_or]
  unfold Placement.slide
  rw [hback]
  dsimp only
  rw [leaving_eq, horder]
  rfl

theorem Holds.slide_alike (h : Holds g window entered s r) (ht : t.IsOf g) (hw : 1 ≤ window)
    (horder : s.order.toList = entered ++ [e]) :
    Alike (fun s' r' => Holds g window (entered ++ [e]) s' r' ∧ s'.order = s.order ∧
        s'.isolated = s.isolated ∧ r'.removed = r.removed)
      (s.slide g t window) (r.slide g e (leavingVertex window (entered ++ [e]))) := by
  have hwf := h.represents.wellFormed
  have he : e < g.size := h.lt_size (by simp [horder])
  have hb : ∀ b, leavingVertex window (entered ++ [e]) = some b → b < g.size := fun b hb => by
    apply h.lt_size
    rw [horder]
    exact List.mem_append_left _ (mem_of_leavingVertex hw hb)
  have hnew : e ∉ entered := (nodup_append_singleton.mp (horder ▸ h.nodup_order)).1
  rw [slide_eq horder, ← bind_pure (r.slide g e _)]
  have hslide := h.represents.slide_alike ht he hb
  rw [← h.skipped] at hslide
  apply hslide.with_values.bind
  intro scores r' h'
  obtain ⟨⟨hrep, hskipped⟩, -, hr'⟩ := h'
  obtain ⟨hwf', r₁, -, hgained, -, hremoved, -⟩ := hwf.of_slide hr'
  replace hremoved := hremoved.trans hgained.removed
  refine .ok ⟨⟨hrep, ?_, hskipped.trans h.skipped, h.isolated, ?_,
    h.tracks.slide hw hnew hwf hr', h.bounded.slide hw hnew hwf hr'⟩, rfl, rfl, hremoved⟩
  · rw [hremoved, h.size]
  · refine List.Perm.trans (List.Perm.append_left _ ?_) h.perm
    exact (List.perm_ext_iff_of_nodup hwf'.nodup hwf.nodup).mpr fun v =>
      hwf.mem_congr hwf' hremoved

/-! ## Placing the best vertex -/

theorem Holds.placeBest_alike (h : Holds g window entered s r) :
    Alike (fun s' x => Holds g window entered s' x.2 ∧ s'.order = s.order.push x.1 ∧
        s'.isolated = s.isolated ∧ x.2.order.length + 1 = r.order.length)
      s.placeBest r.takeBest := by
  have hwf := h.represents.wellFormed
  have halike : Alike (fun s' x => s'.scores.queue.Represents x.2 ∧
      s'.scores.skipped = s.scores.skipped ∧ s'.order = s.order.push x.1 ∧
      s'.isolated = s.isolated) s.placeBest r.takeBest := by
    unfold placeBest RankedList.takeBest
    apply h.represents.extractMax_alike.bind
    intro x y hxy
    obtain ⟨v, queue⟩ := x
    obtain ⟨w, r₁⟩ := y
    obtain ⟨rfl, hrep⟩ := hxy
    dsimp only
    rw [← bind_pure (place _ v)]
    apply (place_alike (s := ⟨⟨queue, _⟩, _, _, _⟩) hrep v).bind
    intro s' r' h'
    exact .ok ⟨h'.1, h'.2.1, h'.2.2.1, h'.2.2.2.1⟩
  -- what the list gives out is known from the values, and the queue gives out the same
  apply halike.with_values.mono
  intro s' x hx
  obtain ⟨v, r'⟩ := x
  obtain ⟨⟨hrep, hskipped, horder, hisolated⟩, -, hr'⟩ := hx
  obtain ⟨q, rest, hq, hfolded, -, hfirst, haside⟩ := hwf.of_takeBest hr'
  obtain ⟨hwf', horder', hsize', -, -⟩ := hq.of_setAside haside
  have hperm : q.order.Perm r.order :=
    (List.perm_ext_iff_of_nodup hq.nodup hwf.nodup).mpr fun w => hwf.mem_congr hq hfolded.removed
  have hv : v ∈ q.order := hfirst ▸ List.mem_cons_self
  refine ⟨⟨hrep, ?_, hskipped.trans h.skipped, hisolated ▸ h.isolated, ?_,
    (h.tracks.folded hfolded).setAside hq haside, (h.bounded.folded hfolded).setAside hq haside⟩,
    horder, hisolated, ?_⟩
  · rw [hsize', hfolded.removed, h.size]
  · rw [horder, Array.toList_push, horder', hisolated]
    exact (perm_place _ hv).trans ((List.Perm.append_left _ hperm).trans h.perm)
  · dsimp only
    rw [horder', List.length_erase_of_mem hv, ← hperm.length_eq]
    exact Nat.sub_add_cancel (List.length_pos_of_mem hv)

/-! ## All steps -/

-- What holds of a placement is kept by all further steps, and what is placed stays placed.
theorem Holds.of_advance {count : Nat} (h : Holds g window entered s r) (ht : t.IsOf g)
    (hw : 1 ≤ window) (horder : s.order.toList = entered ++ [e])
    (hs : s.advance g t window count = .ok s') :
    ∃ entered' e' r', Holds g window entered' s' r' ∧ s'.order.toList = entered' ++ [e'] ∧
      s.order.toList <+: s'.order.toList ∧ s'.order.size = s.order.size + count ∧
      s'.isolated = s.isolated := by
  induction count generalizing s r entered e with
  | zero =>
    cases hs
    exact ⟨entered, e, r, h, horder, List.prefix_rfl, rfl, rfl⟩
  | succ count ih =>
    obtain ⟨s₁, hslide, hrest⟩ := bind_eq_ok_iff.mp hs
    obtain ⟨s₂, hplace, hadvance⟩ := bind_eq_ok_iff.mp hrest
    obtain ⟨r₁, -, h₁, horder₁, hisolated₁, -⟩ := (h.slide_alike ht hw horder).exists_right hslide
    obtain ⟨⟨v, r₂⟩, -, h₂, horder₂, hisolated₂, -⟩ := h₁.placeBest_alike.exists_right hplace
    have hlist : s₂.order.toList = s.order.toList ++ [v] := by
      rw [horder₂, Array.toList_push, horder₁]
    obtain ⟨entered', e', r', h', horder', hprefix, hsize, hisolated⟩ :=
      ih h₂ (by rw [hlist, horder]) hadvance
    refine ⟨entered', e', r', h', horder', ?_, ?_, ?_⟩
    · exact (hlist ▸ List.prefix_append _ _).trans hprefix
    · rw [hsize, horder₂, Array.size_push, horder₁]
      omega
    · rw [hisolated, hisolated₂, hisolated₁]

-- Within the limits, as many vertices can be placed as are in the queue.
theorem Holds.exists_advance {count : Nat} (h : Holds g window entered s r) (ht : t.IsOf g)
    (hw : 1 ≤ window) (horder : s.order.toList = entered ++ [e])
    (htraffic : ∀ v, g.traffic v < 1073741824) (hcount : count ≤ r.order.length) :
    ∃ s', s.advance g t window count = .ok s' := by
  induction count generalizing s r entered e with
  | zero => exact ⟨s, rfl⟩
  | succ count ih =>
    have hnodup : (entered ++ [e]).Nodup := horder ▸ h.nodup_order
    obtain ⟨he, hentered⟩ := nodup_append_singleton.mp hnodup
    obtain ⟨r₁, hr₁⟩ := h.bounded.exists_slide hw he h.represents.wellFormed h.size hentered
      ht.inRange htraffic
    obtain ⟨s₁, hslide, h₁, horder₁, hisolated₁, -⟩ :=
      (h.slide_alike ht hw horder).exists_left hr₁
    -- a slide takes nothing out of the queue, so there still is a vertex to place
    have hlength₁ : r₁.order.length = r.order.length := by
      have hbefore := h.length
      have hafter := h₁.length
      rw [horder₁, hisolated₁] at hafter
      omega
    obtain ⟨v, r₂, hr₂⟩ := h₁.represents.wellFormed.exists_takeBest
      (h₁.bounded.foldable hnodup htraffic) fun hnil => by
        rw [hnil, List.length_nil] at hlength₁
        omega
    obtain ⟨s₂, hplace, h₂, horder₂, -, hlength₂⟩ := h₁.placeBest_alike.exists_left hr₂
    have hlist : s₂.order.toList = (entered ++ [e]) ++ [v] := by
      rw [horder₂, Array.toList_push, horder₁, horder]
    dsimp only at hlength₂
    have hcount₂ : count ≤ r₂.order.length := by omega
    obtain ⟨s', hs'⟩ := ih h₂ hlist hcount₂
    refine ⟨s', ?_⟩
    rw [advance, hslide, ok_bind, hplace, ok_bind, hs']

theorem advance_add (s : Placement) (count more : Nat) :
    s.advance g t window (count + more) =
      s.advance g t window count >>= fun s => s.advance g t window more := by
  induction count generalizing s with
  | zero => rw [Nat.zero_add, advance, ok_bind]
  | succ count ih =>
    rw [Nat.succ_add, advance, advance, bind_assoc]
    apply bind_congr
    intro s₁
    rw [bind_assoc]
    exact bind_congr fun s₂ => ih s₂

-- Each vertex that the loop places is the best one of the queue after a slide.
theorem Holds.exists_placed {count more : Nat} (h : Holds g window entered s r) (ht : t.IsOf g)
    (hw : 1 ≤ window) (horder : s.order.toList = entered ++ [e])
    (hs : s.advance g t window (count + (more + 1)) = .ok s') :
    ∃ s₁ r₁ v r₂, Holds g window s₁.order.toList s₁ r₁ ∧ r₁.takeBest = .ok (v, r₂) ∧
      s₁.order.size = s.order.size + count ∧ s₁.order.toList ++ [v] <+: s'.order.toList ∧
      s₁.isolated = s.isolated := by
  -- the run is split before the vertex is placed and after it
  rw [advance_add] at hs
  obtain ⟨s₀, hbefore, hafter⟩ := bind_eq_ok_iff.mp hs
  obtain ⟨s₁, hslide, hrest⟩ := bind_eq_ok_iff.mp hafter
  obtain ⟨s₂, hplace, hadvance⟩ := bind_eq_ok_iff.mp hrest
  obtain ⟨_, _, _, h₀, horder₀, -, hsize₀, hisolated₀⟩ := h.of_advance ht hw horder hbefore
  obtain ⟨r₁, -, h₁, horder₁, hisolated₁, -⟩ := (h₀.slide_alike ht hw horder₀).exists_right hslide
  obtain ⟨⟨v, r₂⟩, htake, h₂, horder₂, -⟩ := h₁.placeBest_alike.exists_right hplace
  have hlist : s₂.order.toList = s₁.order.toList ++ [v] := by rw [horder₂, Array.toList_push]
  rw [← horder₀, ← horder₁] at h₁ h₂
  obtain ⟨_, _, _, -, -, hprefix, -⟩ := h₂.of_advance ht hw hlist hadvance
  refine ⟨s₁, r₁, v, r₂, h₁, htake, ?_, hlist ▸ hprefix, hisolated₁.trans hisolated₀⟩
  rw [horder₁, hsize₀]

-- what comes later in the order than all that is placed is still in the queue
theorem Holds.mem_order_of_later {earlier : List Vertex} {s₁ : Placement} {r₁ : RankedList} {j : Nat}
    (h₁ : Holds g window earlier s₁ r₁) (h : Holds g window entered s r)
    (hbegins : s₁.order.toList <+: s.order.toList) (hisolated : s₁.isolated = s.isolated)
    (hj : s₁.order.size ≤ j) (hv : s.order.toList[j]? = some v) : v ∈ r₁.order := by
  have hmem := List.mem_of_getElem? hv
  have hall := h₁.perm.mem_iff.mpr (Vertex.mem_all.mpr (h.lt_size hmem))
  rw [List.mem_append, List.mem_append] at hall
  rcases hall with (hplaced | hiso) | hqueue
  · obtain ⟨later, hlater⟩ := hbegins
    obtain ⟨k, hk, hkv⟩ := List.mem_iff_getElem.mp hplaced
    have hkv' : s.order.toList[k]? = some v := by
      rw [← hlater, List.getElem?_append_left hk, List.getElem?_eq_getElem hk, hkv]
    have heq := (List.getElem?_inj (List.getElem?_eq_some_iff.mp hv).1 h.nodup_order).mp
      (hv.trans hkv'.symm)
    rw [Array.length_toList] at hk
    omega
  · rw [hisolated] at hiso
    have hdisjoint := (List.nodup_append.mp (List.nodup_append.mp h.nodup).1).2.2
    exact absurd rfl (hdisjoint v hmem v hiso)
  · exact hqueue

/-! ## Reached states -/

/-- A state that the loop reaches: there is nothing to place, or some vertex was placed last. -/
inductive Reached (g : Digraph) (window : Nat) (s : Placement) : Prop
  | nothing {r : RankedList} (h : Holds g window [] s r) (horder : s.order = #[])
      (hempty : r.order = [])
  | placed {entered : List Vertex} {e : Vertex} {r : RankedList}
      (h : Holds g window entered s r) (horder : s.order.toList = entered ++ [e])

theorem reached_of_start (ht : t.IsOf g) (hs : start g t = .ok s) (window : Nat) :
    Reached g window s := by
  obtain ⟨hstarts, r, hholds⟩ := of_start ht hs
  have h := hholds window
  rcases hstarts with ⟨horder, hall⟩ | ⟨v, horder, -⟩
  · refine .nothing h horder (List.eq_nil_of_length_eq_zero ?_)
    have hlength := h.length
    have hisolated : s.isolated.toList = Vertex.all g.size := by
      rw [h.isolated, List.filter_eq_self]
      exact fun v hv => decide_eq_true (hall v (Vertex.mem_all.mp hv))
    have hsize : s.isolated.size = g.size := by
      rw [← Array.length_toList, hisolated, Vertex.length_all]
    omega
  · have hone : s.order.toList = [] ++ [v] := by
      rw [horder]
      rfl
    exact .placed h hone

-- Where there is nothing to place, the loop does not go on.
theorem Holds.advance_of_empty {count : Nat} (h : Holds g window entered s r)
    (horder : s.order = #[]) (hempty : r.order = []) (hs : s.advance g t window count = .ok s') :
    s' = s := by
  cases count with
  | zero =>
    cases hs
    rfl
  | succ count =>
    obtain ⟨s₁, hslide, hrest⟩ := bind_eq_ok_iff.mp hs
    obtain ⟨s₂, hplace, -⟩ := bind_eq_ok_iff.mp hrest
    unfold Placement.slide at hslide
    rw [horder] at hslide
    cases hslide
    obtain ⟨x, htake, -⟩ := h.placeBest_alike.exists_right hplace
    unfold RankedList.takeBest RankedList.extractMax at htake
    rw [hempty] at htake
    cases htake

theorem Reached.of_advance {count : Nat} (h : Reached g window s) (ht : t.IsOf g)
    (hw : 1 ≤ window) (hs : s.advance g t window count = .ok s') :
    Reached g window s' ∧ s.order.toList <+: s'.order.toList ∧ s'.isolated = s.isolated := by
  cases h with
  | nothing h horder hempty =>
    obtain rfl := h.advance_of_empty horder hempty hs
    exact ⟨.nothing h horder hempty, List.prefix_rfl, rfl⟩
  | placed h horder =>
    obtain ⟨entered', e', r', h', horder', hprefix, -, hisolated⟩ := h.of_advance ht hw horder hs
    exact ⟨.placed h' horder', hprefix, hisolated⟩

/-- A completed placement has an empty queue. -/
theorem Reached.of_complete (ht : t.IsOf g) (hw : 1 ≤ window)
    (hs : complete g t window = .ok s) :
    ∃ s₀, start g t = .ok s₀ ∧ Starts g s₀ ∧ s₀.order.toList <+: s.order.toList ∧
      ∃ entered r, Holds g window entered s r ∧ r.order = [] := by
  obtain ⟨s₀, hstart, hadvance⟩ := bind_eq_ok_iff.mp hs
  have hstarts := (of_start ht hstart).1
  cases reached_of_start ht hstart window with
  | nothing h horder hempty =>
    obtain rfl := h.advance_of_empty horder hempty hadvance
    exact ⟨s, hstart, hstarts, List.prefix_rfl, [], _, h, hempty⟩
  | placed h horder =>
    obtain ⟨entered', e', r', h', -, hprefix, hsize, hisolated⟩ :=
      h.of_advance ht hw horder hadvance
    refine ⟨s₀, hstart, hstarts, hprefix, entered', r', h', List.eq_nil_of_length_eq_zero ?_⟩
    have hbefore := h.length
    have hafter := h'.length
    rw [hsize, hisolated] at hafter
    omega

/-- Within the limits, a placement can be completed. -/
theorem exists_complete (ht : t.IsOf g) (hw : 1 ≤ window) (hsize : g.size < RunQueue.capacity)
    (htraffic : ∀ v, g.traffic v < 1073741824) : ∃ s, complete g t window = .ok s := by
  obtain ⟨s₀, hstart⟩ := exists_start ht hsize fun v => by
    have hdegree := g.inDegree_le_traffic v
    have hlimit := htraffic v
    omega
  unfold complete
  rw [hstart, ok_bind]
  cases reached_of_start ht hstart window with
  | nothing h horder hempty =>
    have hlength := h.length
    rw [hempty, List.length_nil] at hlength
    rw [show g.size - s₀.isolated.size - s₀.order.size = 0 by omega]
    exact ⟨s₀, rfl⟩
  | placed h horder =>
    have hlength := h.length
    exact h.exists_advance ht hw horder htraffic (by omega)

/-! ## The vertex that came first -/

theorem first_of_place (h : s.place v = .ok s') : s'.first = s.first := by
  obtain ⟨scores, -, heq⟩ := bind_eq_ok_iff.mp h
  cases heq
  rfl

theorem first_of_slide (h : s.slide g t window = .ok s') : s'.first = s.first := by
  unfold Placement.slide at h
  split at h
  next =>
    cases h
    rfl
  next =>
    obtain ⟨scores, -, heq⟩ := bind_eq_ok_iff.mp h
    cases heq
    rfl

theorem first_of_placeBest (h : s.placeBest = .ok s') : s'.first = s.first := by
  obtain ⟨⟨v, queue⟩, -, hplace⟩ := bind_eq_ok_iff.mp h
  obtain ⟨scores, -, heq⟩ := bind_eq_ok_iff.mp hplace
  cases heq
  rfl

theorem first_of_advance {count : Nat} (h : s.advance g t window count = .ok s') :
    s'.first = s.first := by
  induction count generalizing s with
  | zero =>
    cases h
    rfl
  | succ count ih =>
    obtain ⟨s₁, hslide, hrest⟩ := bind_eq_ok_iff.mp h
    obtain ⟨s₂, hplace, hadvance⟩ := bind_eq_ok_iff.mp hrest
    rw [ih hadvance, first_of_placeBest hplace, first_of_slide hslide]

-- What the survey remembers is not forgotten.
theorem remembers_of_complete (ht : t.IsOf g) (hs : complete g t window = .ok s) :
    Remembers g (Vertex.all g.size) s.first := by
  obtain ⟨s₀, hstart, hadvance⟩ := bind_eq_ok_iff.mp hs
  obtain ⟨r, hr⟩ := exists_starting_of_start ht hstart
  obtain ⟨s₁, r₁, hsurveyed, h₁, -⟩ := exists_surveyed ht hr
  unfold start at hstart
  rw [hsurveyed, ok_bind] at hstart
  have hfirst : s₀.first = s₁.first := by
    split at hstart
    next =>
      cases hstart
      rfl
    next => exact first_of_place hstart
  rw [first_of_advance hadvance, hfirst]
  exact h₁.first

end Placement

end LocalityOrder
