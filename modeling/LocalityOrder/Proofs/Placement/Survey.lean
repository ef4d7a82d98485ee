import LocalityOrder.Proofs.Placement.Start

/-!
# The survey

The survey goes through the vertices in ascending order, takes those without edges out of the queue
and remembers the first of the others that has the largest in-degree.  It succeeds wherever the
first queue can be built.
-/

namespace LocalityOrder

namespace Placement

variable {g : Digraph} {t : Transpose} {s s' : Placement} {r r' : RankedList} {v : Vertex}

/-! ## The vertex to start from -/

/-- `v` is the smallest among the vertices of `l` that have the largest in-degree. -/
def ComesFirst (g : Digraph) (l : List Vertex) (v : Vertex) : Prop :=
  v ∈ l ∧ ∀ u ∈ l, g.inDegree u < g.inDegree v ∨ g.inDegree u = g.inDegree v ∧ v ≤ u

theorem ComesFirst.unique {l : List Vertex} {w : Vertex} (hv : ComesFirst g l v)
    (hw : ComesFirst g l w) : v = w := by
  rcases hv.2 w hw.1 with hlt | ⟨heq, hvw⟩
  · have := hw.2 v hv.1
    omega
  · rcases hw.2 v hv.1 with hlt | ⟨-, hwv⟩
    · omega
    · exact Nat.le_antisymm hvw hwv

/-- What is remembered of the vertices seen: the one that comes first among those with edges. -/
def Remembers (g : Digraph) (seen : List Vertex) : Option (Vertex × Nat) → Prop
  | none => ∀ u ∈ seen, g.IsIsolated u
  | some (v, degree) => degree = g.inDegree v ∧ ComesFirst g (seen.filter (¬ g.IsIsolated ·)) v

/-- The vertex to start from after one vertex more, which has edges. -/
def betterFirst (first : Option (Vertex × Nat)) (v : Vertex) (degree : Nat) : Vertex × Nat :=
  match first with
  | none => (v, degree)
  | some (best, largest) => if largest < degree then (v, degree) else (best, largest)

theorem Remembers.concat_isolated {seen : List Vertex} {first : Option (Vertex × Nat)}
    (h : Remembers g seen first) (hv : g.IsIsolated v) : Remembers g (seen ++ [v]) first := by
  cases first with
  | none =>
    intro u hu
    rcases List.mem_append.mp hu with hu | hu
    · exact h u hu
    · exact List.mem_singleton.mp hu ▸ hv
  | some best =>
    have hfilter : (seen ++ [v]).filter (¬ g.IsIsolated ·) = seen.filter (¬ g.IsIsolated ·) := by
      rw [List.filter_append, List.filter_cons_of_neg (by simpa using hv), List.filter_nil,
        List.append_nil]
    unfold Remembers
    rw [hfilter]
    exact h

theorem Remembers.concat {seen : List Vertex} {first : Option (Vertex × Nat)}
    (h : Remembers g seen first) (hv : ¬ g.IsIsolated v) (hseen : ∀ u ∈ seen, u < v) :
    Remembers g (seen ++ [v]) (some (betterFirst first v (g.inDegree v))) := by
  have hfilter : (seen ++ [v]).filter (¬ g.IsIsolated ·) =
      seen.filter (¬ g.IsIsolated ·) ++ [v] := by
    rw [List.filter_append, List.filter_cons_of_pos (by simpa using hv), List.filter_nil]
  cases first with
  | none =>
    have hnone : seen.filter (¬ g.IsIsolated ·) = [] := by
      apply List.filter_eq_nil_iff.mpr
      intro u hu
      simpa using h u hu
    refine ⟨rfl, ?_⟩
    rw [hfilter, hnone]
    refine ⟨List.mem_singleton_self v, fun u hu => ?_⟩
    rw [List.nil_append, List.mem_singleton] at hu
    exact .inr ⟨by rw [hu], Nat.le_of_eq hu.symm⟩
  | some best =>
    obtain ⟨best, largest⟩ := best
    obtain ⟨rfl, hbest, hmax⟩ := h
    have hlt : best < v := hseen best (List.mem_filter.mp hbest).1
    unfold Remembers betterFirst
    dsimp only
    rw [hfilter]
    split
    next hless =>
      -- the new vertex has a larger in-degree than all before it
      refine ⟨rfl, List.mem_append_right _ (List.mem_singleton_self v), fun u hu => ?_⟩
      rcases List.mem_append.mp hu with hu | hu
      · rcases hmax u hu with hlt' | ⟨heq, -⟩
        · exact .inl (hlt'.trans hless)
        · exact .inl (heq ▸ hless)
      · rw [List.mem_singleton.mp hu]
        exact .inr ⟨rfl, Nat.le_refl v⟩
    next hless =>
      refine ⟨rfl, List.mem_append_left _ hbest, fun u hu => ?_⟩
      rcases List.mem_append.mp hu with hu | hu
      · exact hmax u hu
      · rw [List.mem_singleton.mp hu]
        rcases Nat.lt_or_eq_of_le (Nat.le_of_not_lt hless) with hlt' | heq
        · exact .inl hlt'
        · exact .inr ⟨heq, Nat.le_of_lt hlt⟩

theorem survey_eq (ht : t.IsOf g) (hv : v < g.size) (s : Placement) :
    survey g t s v = if g.IsIsolated v then
        setAside s.scores v >>= fun scores =>
          .ok ⟨scores, s.order, s.isolated.push v, s.first⟩
      else .ok ⟨s.scores, s.order, s.isolated, some (betterFirst s.first v (g.inDegree v))⟩ := by
  have hisolated : (g.inDegree v = 0 ∧ g.targets v = []) ↔ g.IsIsolated v :=
    and_congr_right fun _ => List.length_eq_zero_iff.symm
  unfold survey
  rw [ht.degree hv, ok_bind, Digraph.neighbors_of_lt hv, ok_bind]
  by_cases hiso : g.IsIsolated v
  · rw [if_pos hiso]
    dsimp only
    rw [if_pos (hisolated.mpr hiso)]
    rfl
  · rw [if_neg hiso]
    dsimp only
    rw [if_neg fun h => hiso (hisolated.mp h)]
    cases s.first <;> rfl

/-! ## Surveying -/

/-- What holds while the vertices are surveyed: those seen and without edges have been taken out of
the queue. -/
structure Surveyed (g : Digraph) (seen : List Vertex) (s : Placement) (r : RankedList) : Prop where
  represents : s.scores.queue.Represents r
  size : r.removed.size = g.size
  skipped : s.scores.skipped = .filled g.size false
  order : s.order = #[]
  isolated : s.isolated.toList = seen.filter (g.IsIsolated ·)
  mem_order_iff : ∀ v, v ∈ r.order ↔ v < g.size ∧ ¬ (v ∈ seen ∧ g.IsIsolated v)
  first : Remembers g seen s.first
  tracks : ∀ window, r.Tracks g window []
  bounded : ∀ window, r.Bounded g window []

theorem Surveyed.exists_survey {seen : List Vertex} (h : Surveyed g seen s r) (ht : t.IsOf g)
    (hv : v < g.size) (hseen : ∀ u ∈ seen, u < v) :
    ∃ s' r', survey g t s v = .ok s' ∧ Surveyed g (seen ++ [v]) s' r' ∧
      ([v].filter (g.IsIsolated ·)).foldlM RankedList.setAside r = .ok r' := by
  have hwf := h.represents.wellFormed
  rw [survey_eq ht hv]
  by_cases hiso : g.IsIsolated v
  · rw [if_pos hiso]
    obtain ⟨r', hr'⟩ := hwf.exists_setAside (h.size.symm ▸ hv)
    obtain ⟨hwf', horder', hsize', -, -⟩ := hwf.of_setAside hr'
    obtain ⟨scores, hscores, hrep, hskipped⟩ :=
      (setAside_alike h.represents s.scores.skipped v).exists_left hr'
    refine ⟨⟨scores, s.order, s.isolated.push v, s.first⟩, r', ?_, ⟨hrep, hsize'.trans h.size,
      hskipped.trans h.skipped, h.order, ?_, fun w => ?_, h.first.concat_isolated hiso,
      fun window => (h.tracks window).setAside hwf hr',
      fun window => (h.bounded window).setAside hwf hr'⟩, ?_⟩
    · change (setAside ⟨s.scores.queue, s.scores.skipped⟩ v >>= _) = _
      rw [hscores, ok_bind]
    · dsimp only
      rw [Array.toList_push, h.isolated, List.filter_append,
        List.filter_cons_of_pos (by simpa using hiso), List.filter_nil]
    · rw [horder', hwf.nodup.mem_erase_iff, h.mem_order_iff, List.mem_append, List.mem_singleton]
      by_cases hw : w = v
      · simp [hw, hiso]
      · simp [hw]
    · rw [List.filter_cons_of_pos (by simpa using hiso), List.filter_nil, List.foldlM_cons, hr',
        ok_bind, List.foldlM_nil, pure_eq_ok]
  · rw [if_neg hiso]
    refine ⟨_, r, rfl, ⟨h.represents, h.size, h.skipped, h.order, ?_, fun w => ?_,
      h.first.concat hiso hseen, h.tracks, h.bounded⟩, ?_⟩
    · dsimp only
      rw [h.isolated, List.filter_append, List.filter_cons_of_neg (by simpa using hiso),
        List.filter_nil, List.append_nil]
    · rw [h.mem_order_iff, List.mem_append, List.mem_singleton]
      by_cases hw : w = v
      · simp [hw, hiso]
      · simp [hw]
    · rw [List.filter_cons_of_neg (by simpa using hiso), List.filter_nil, List.foldlM_nil,
        pure_eq_ok]

theorem Surveyed.exists_foldlM {seen : List Vertex} (h : Surveyed g seen s r) (ht : t.IsOf g)
    (rest : List Vertex) (hlt : ∀ v ∈ rest, v < g.size)
    (hsorted : (seen ++ rest).Pairwise (· < ·)) :
    ∃ s' r', rest.foldlM (survey g t) s = .ok s' ∧ Surveyed g (seen ++ rest) s' r' ∧
      (rest.filter (g.IsIsolated ·)).foldlM RankedList.setAside r = .ok r' := by
  induction rest generalizing seen s r with
  | nil => exact ⟨s, r, rfl, by rwa [List.append_nil], rfl⟩
  | cons v rest ih =>
    have hseen : ∀ u ∈ seen, u < v := fun u hu =>
      (List.pairwise_append.mp hsorted).2.2 u hu v List.mem_cons_self
    obtain ⟨s₁, r₁, hsurvey, h₁, haside⟩ := h.exists_survey ht (hlt v List.mem_cons_self) hseen
    have hsplit : seen ++ v :: rest = seen ++ [v] ++ rest := by simp
    rw [hsplit] at hsorted ⊢
    obtain ⟨s', r', hfold, h', haside'⟩ :=
      ih h₁ (fun w hw => hlt w (List.mem_cons_of_mem v hw)) hsorted
    refine ⟨s', r', ?_, h', ?_⟩
    · rw [List.foldlM_cons, hsurvey, ok_bind, hfold]
    · rw [← List.singleton_append, List.filter_append, List.foldlM_append, haside, ok_bind, haside']

-- A survey succeeds wherever the first queue can be built.
theorem exists_surveyed (ht : t.IsOf g) (hr : RankedList.starting g = .ok r) :
    ∃ s r', surveyed g t = .ok s ∧ Surveyed g (Vertex.all g.size) s r' ∧
      ((Vertex.all g.size).filter (g.IsIsolated ·)).foldlM RankedList.setAside r = .ok r' := by
  obtain ⟨queue, hqueue, hrep⟩ := (startingQueue_alike ht).exists_left hr
  obtain ⟨hwf, hremoved, hkey, hpending⟩ :=
    RankedList.of_starting ht.inRange ht.edgeCount_le hr
  have hstart : Surveyed g [] ⟨⟨queue, .filled g.size false⟩, #[], #[], none⟩ r := by
    have hnone : Remembers g [] none := by simp [Remembers]
    refine ⟨hrep, by rw [hremoved, Table.size_filled], rfl, rfl, rfl, fun v => ?_, hnone,
      RankedList.tracks_nil hkey hpending, RankedList.bounded_nil hkey hpending⟩
    rw [hwf.mem_order_iff, hremoved, Table.getElem?_filled]
    simp
  obtain ⟨s, r', hfold, hsurveyed, haside⟩ := hstart.exists_foldlM ht (Vertex.all g.size)
    (fun v hv => Vertex.mem_all.mp hv) (by
      rw [List.nil_append]
      exact List.pairwise_lt_range)
  refine ⟨s, r', ?_, by rwa [List.nil_append] at hsurveyed, haside⟩
  unfold surveyed
  rw [hqueue, ok_bind, hfold]

end Placement

end LocalityOrder
