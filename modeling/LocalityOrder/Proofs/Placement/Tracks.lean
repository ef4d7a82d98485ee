import LocalityOrder.Proofs.RankedList.Extract
import LocalityOrder.Proofs.Window
import LocalityOrder.Proofs.WindowScores

/-!
# Scores along a placement

What holds of the scores once certain vertices have entered the window, whichever vertices are still
in the queue (`Tracks`), and within what bounds all keys and pending changes are, those of placed
vertices as well (`Bounded`).  Taking a vertex out of the queue and folding pending decreases keep
both, and a slide carries both on to one entered vertex more.
-/

namespace LocalityOrder

namespace RankedList

/-- Takes a vertex out of the list, its pending change marking it as placed. -/
def setAside (r : RankedList) (v : Vertex) : Except Fault RankedList := do
  let r ← r.remove v
  r.setPending v .placed

/-- Each element scores its affinity to the window less the deficits, its decreases are pending, and
its key is not above the peak of its scores. -/
structure Tracks (r : RankedList) (g : Digraph) (window : Nat) (entered : List Vertex) : Prop where
  score : ∀ v, r.IsLive v →
    r.score v = (g.windowAffinity (entered.rtake window) v : Int) - g.deficit window entered v
  pending_nonpos : ∀ v, r.IsLive v → r.pendingOf v ≤ 0
  key_le_peak : ∀ v, r.IsLive v → r.keyOf v ≤ g.peak window entered v

/-- No id has gained more than its affinity to what has entered the window, and none has lost more
than its affinity to what has left it. -/
structure Bounded (r : RankedList) (g : Digraph) (window : Nat) (entered : List Vertex) : Prop where
  key_le : ∀ v, r.keyOf v ≤ g.inDegree v + g.windowAffinity entered v
  pending_ge : ∀ v,
    -(g.inDegree v + g.windowAffinity (entered.rdrop window) v : Int) ≤ r.pendingOf v
  pending_le : ∀ v, r.pendingOf v ≤ 1073741823 + (g.windowAffinity entered v : Int)

variable {g : Digraph} {r r' : RankedList} {window : Nat} {entered : List Vertex} {e v : Vertex}

/-! ## Setting a vertex aside -/

theorem WellFormed.of_setAside (h : r.WellFormed) (hr : r.setAside v = .ok r') :
    r'.WellFormed ∧ r'.order = r.order.erase v ∧ r'.removed.size = r.removed.size ∧
      r'.keys = r.keys ∧ ∀ w, r'.pendingOf w = if w = v then 1073741823 else r.pendingOf w := by
  obtain ⟨s, hremove, hset⟩ := bind_eq_ok_iff.mp hr
  obtain ⟨hwf, horder, hkeys, hpending, hsize, -⟩ := h.of_remove hremove
  obtain ⟨hwf', horder', hremoved', hkeys', hpending'⟩ := hwf.of_setPending hset
  refine ⟨hwf', horder'.trans horder, ?_, hkeys'.trans hkeys, fun w => ?_⟩
  · rw [hremoved', hsize]
  · rw [hpending' w]
    unfold RankedList.pendingOf
    rw [hpending]
    rfl

theorem WellFormed.exists_setAside (h : r.WellFormed) (hv : v < r.removed.size) :
    ∃ r', r.setAside v = .ok r' := by
  obtain ⟨s, hremove⟩ := exists_remove hv
  obtain ⟨hwf, -, -, -, hsize, -⟩ := h.of_remove hremove
  obtain ⟨r', hset⟩ := hwf.exists_setPending (hsize.symm ▸ hv) Score.placed
  refine ⟨r', ?_⟩
  unfold setAside
  rw [hremove, ok_bind, hset]

-- Setting aside a vertex that has just been removed does not remove it again.
theorem WellFormed.setAside_of_remove (h : r.WellFormed) (hv : v < r.removed.size)
    (hremove : r.remove v = .ok r') : r'.setAside v = r.setAside v := by
  obtain ⟨hwf, horder, -, -, hsize, -⟩ := h.of_remove hremove
  have hnot : v ∉ r'.order := horder ▸ h.nodup.not_mem_erase
  unfold setAside
  rw [hremove, hwf.remove_of_not_mem (hsize.symm ▸ hv) hnot]

theorem isLive_iff (h : r.WellFormed) : r.IsLive v ↔ v ∈ r.order := h.mem_order_iff.symm

theorem Tracks.setAside (h : r.Tracks g window entered) (hwf : r.WellFormed)
    (hr : r.setAside v = .ok r') : r'.Tracks g window entered := by
  obtain ⟨hwf', horder, -, hkeys, hpending⟩ := hwf.of_setAside hr
  have hlive : ∀ w, r'.IsLive w → r.IsLive w ∧ r'.keyOf w = r.keyOf w ∧
      r'.pendingOf w = r.pendingOf w := fun w hw => by
    rw [isLive_iff hwf', horder, hwf.nodup.mem_erase_iff] at hw
    refine ⟨(isLive_iff hwf).mpr hw.2, ?_, ?_⟩
    · unfold keyOf
      rw [hkeys]
    · rw [hpending w, if_neg hw.1]
  refine ⟨fun w hw => ?_, fun w hw => ?_, fun w hw => ?_⟩
  · obtain ⟨hw', hkey, hpend⟩ := hlive w hw
    rw [← h.score w hw']
    unfold RankedList.score
    rw [hkey, hpend]
  · obtain ⟨hw', -, hpend⟩ := hlive w hw
    exact hpend ▸ h.pending_nonpos w hw'
  · obtain ⟨hw', hkey, -⟩ := hlive w hw
    exact hkey ▸ h.key_le_peak w hw'

theorem Bounded.setAside (h : r.Bounded g window entered) (hwf : r.WellFormed)
    (hr : r.setAside v = .ok r') : r'.Bounded g window entered := by
  obtain ⟨-, -, -, hkeys, hpending⟩ := hwf.of_setAside hr
  refine ⟨fun w => ?_, fun w => ?_, fun w => ?_⟩
  · unfold keyOf
    rw [hkeys]
    exact h.key_le w
  · have hge := h.pending_ge w
    rw [hpending w]
    split
    next => omega
    next => exact hge
  · have hle := h.pending_le w
    rw [hpending w]
    split
    next => omega
    next => exact hle

/-- Removes the best element and marks it as placed. -/
def takeBest (r : RankedList) : Except Fault (Vertex × RankedList) := do
  let (v, r) ← r.extractMax
  return (v, ← r.setAside v)

-- The best element is the head of the settled list, out of which it is taken.
theorem WellFormed.of_takeBest (h : r.WellFormed) (hr : r.takeBest = .ok (v, r')) :
    ∃ s rest, s.WellFormed ∧ Folded r s ∧ s.Settled ∧ s.order = v :: rest ∧
      s.setAside v = .ok r' := by
  obtain ⟨⟨w, r₁⟩, hextract, hrest⟩ := bind_eq_ok_iff.mp hr
  obtain ⟨r₂, haside, heq⟩ := bind_eq_ok_iff.mp hrest
  cases heq
  obtain ⟨s, rest, hwf, hfolded, hsettled, horder, hremove⟩ := h.of_extractMax hextract
  have hv : v < s.removed.size := hwf.lt_of_mem (horder ▸ List.mem_cons_self)
  rw [hwf.setAside_of_remove hv hremove] at haside
  exact ⟨s, rest, hwf, hfolded, hsettled, horder, haside⟩

theorem WellFormed.exists_takeBest (h : r.WellFormed) (hfits : r.Foldable)
    (hne : r.order ≠ []) : ∃ v r', r.takeBest = .ok (v, r') := by
  obtain ⟨v, r₁, hextract⟩ := h.exists_extractMax hfits hne
  obtain ⟨s, rest, hwf, -, -, horder, hremove⟩ := h.of_extractMax hextract
  have hv : v < s.removed.size := hwf.lt_of_mem (horder ▸ List.mem_cons_self)
  obtain ⟨r', haside⟩ := hwf.exists_setAside hv
  refine ⟨v, r', ?_⟩
  unfold takeBest
  rw [hextract, ok_bind]
  dsimp only
  rw [hwf.setAside_of_remove hv hremove, haside, ok_bind, pure_eq_ok]

/-! ## Folding -/

theorem Tracks.folded (h : r.Tracks g window entered) (hfolded : Folded r r') :
    r'.Tracks g window entered := by
  have hlive : ∀ w, r'.IsLive w → r.IsLive w := fun w hw => by
    unfold IsLive at hw ⊢
    rwa [← hfolded.removed]
  refine ⟨fun w hw => ?_, fun w hw => ?_, fun w hw => ?_⟩
  · rw [hfolded.score w, h.score w (hlive w hw)]
  · exact hfolded.pending_nonpos (h.pending_nonpos w (hlive w hw))
  · exact Nat.le_trans (hfolded.key_le w) (h.key_le_peak w (hlive w hw))

theorem Bounded.folded (h : r.Bounded g window entered) (hfolded : Folded r r') :
    r'.Bounded g window entered := by
  refine ⟨fun w => Nat.le_trans (hfolded.key_le w) (h.key_le w), fun w => ?_, fun w => ?_⟩
  · have hge := h.pending_ge w
    have hkey := hfolded.key_le w
    have hpending := hfolded.pending_eq w
    omega
  · -- a change that a fold has touched is still a decrease
    have hle := h.pending_le w
    have hpending := hfolded.pending_eq w
    have hfold := hfolded.fold w
    omega

-- Within its bounds, a list can be settled.
theorem Bounded.foldable (h : r.Bounded g window entered) (hnodup : entered.Nodup)
    (htraffic : ∀ v, g.traffic v < 1073741824) : r.Foldable := by
  intro v _
  have hkey := h.key_le v
  have hpending := h.pending_ge v
  have hentered := Digraph.windowAffinity_le_traffic (g := g) hnodup v
  have hleft := Digraph.windowAffinity_le_traffic (g := g)
    (hnodup.sublist (List.take_sublist (entered.length - window) entered)) v
  have hdegree := g.inDegree_le_traffic v
  have hlimit := htraffic v
  unfold List.rdrop at hpending
  omega

/-! ## Sliding the window -/

section Slide

variable (hw : 1 ≤ window) (he : e ∉ entered)

include hw he

theorem ne_of_leavingVertex (b : Vertex) (hb : leavingVertex window (entered ++ [e]) = some b) :
    e ≠ b := fun heq => he (heq ▸ mem_of_leavingVertex hw hb)

theorem Tracks.slide (h : r.Tracks g window entered) (hwf : r.WellFormed)
    (hr : r.slide g e (leavingVertex window (entered ++ [e])) = .ok r') :
    r'.Tracks g window (entered ++ [e]) := by
  obtain ⟨-, s, -, hgained, -, hremoved, hkeys, hpending⟩ := hwf.of_slide hr
  have hne := ne_of_leavingVertex hw he
  have hlive : ∀ v, r'.IsLive v → r.IsLive v := fun v hv => by
    unfold IsLive at hv ⊢
    rwa [← hgained.removed, ← hremoved]
  have hkey : ∀ v, r'.keyOf v = s.keyOf v := fun v => by
    unfold keyOf
    rw [hkeys]
  have hwindow : ∀ v, g.windowAffinity (entered.rtake window) v + g.affinity e v =
      g.windowAffinity (leavingVertex window (entered ++ [e])).toList v +
        g.windowAffinity ((entered ++ [e]).rtake window) v := fun v => by
    have hsplit := congrArg (g.windowAffinity · v) (rtake_append_singleton hw entered e)
    simpa using hsplit
  refine ⟨fun v hv => ?_, fun v hv => ?_, fun v hv => ?_⟩
  · have hbefore := h.score v (hlive v hv)
    have hgain := hgained.score v (hlive v hv)
    have hloss := hpending v
    have hcount := Digraph.count_gains_add (g := g) hne v
    have hdeficit := g.deficit_append_singleton hw entered e v
    have hwin := hwindow v
    have hk := hkey v
    unfold RankedList.score at *
    omega
  · have hgain := hgained.pending_nonpos v (hlive v hv) (h.pending_nonpos v (hlive v hv))
    have hloss := hpending v
    omega
  · rw [hkey v]
    rcases hgained.key_le_score v with heq | hle
    · rw [heq]
      exact Nat.le_trans (h.key_le_peak v (hlive v hv)) (g.peak_mono window entered e v)
    · -- a key is raised before the loss, to at most the score in the wider window
      refine Nat.le_trans ?_ (g.windowAffinity_le_peak window entered e v)
      have hbefore := h.score v (hlive v hv)
      have hgain := hgained.score v (hlive v hv)
      have hcount := Digraph.count_gains_le (g := g) hne v
      rw [g.windowAffinity_append]
      change _ ≤ _ + (g.affinity e v + 0)
      omega

theorem Bounded.slide (h : r.Bounded g window entered) (hwf : r.WellFormed)
    (hr : r.slide g e (leavingVertex window (entered ++ [e])) = .ok r') :
    r'.Bounded g window (entered ++ [e]) := by
  obtain ⟨-, s, -, hgained, -, -, hkeys, hpending⟩ := hwf.of_slide hr
  have hne := ne_of_leavingVertex hw he
  have hentered : ∀ v, g.windowAffinity (entered ++ [e]) v =
      g.windowAffinity entered v + g.affinity e v := fun v => by simp
  have hleft : ∀ v, g.windowAffinity ((entered ++ [e]).rdrop window) v =
      g.windowAffinity (entered.rdrop window) v +
        g.windowAffinity (leavingVertex window (entered ++ [e])).toList v := fun v => by
    rw [rdrop_append_singleton hw, g.windowAffinity_append]
  refine ⟨fun v => ?_, fun v => ?_, fun v => ?_⟩
  · have hbefore := h.key_le v
    have hgain := hgained.key_le_add v
    have hcount := Digraph.count_gains_le (g := g) hne v
    have hafter := hentered v
    unfold keyOf at *
    rw [hkeys]
    omega
  · have hbefore := h.pending_ge v
    have hgain := hgained.pending_le v
    have hloss := hpending v
    have hcount := Digraph.count_losses_le (g := g) hne v
    have hafter := hleft v
    omega
  · have hbefore := h.pending_le v
    have hgain := hgained.pending_le_add v
    have hloss := hpending v
    have hcount := Digraph.count_gains_le (g := g) hne v
    have hafter := hentered v
    omega

-- what has entered the window, the last one included, adds up to no more than the traffic
omit hw in
theorem entered_le_traffic (hnodup : entered.Nodup) (v : Vertex) :
    g.windowAffinity entered v + g.affinity e v ≤ g.traffic v := by
  have hnodup' : (entered ++ [e]).Nodup := nodup_append_singleton.mpr ⟨he, hnodup⟩
  have hle := Digraph.windowAffinity_le_traffic (g := g) hnodup' v
  simpa using hle

-- and so does what has left it
theorem left_le_traffic (hnodup : entered.Nodup) (v : Vertex) :
    g.windowAffinity (entered.rdrop window) v +
      g.windowAffinity (leavingVertex window (entered ++ [e])).toList v ≤ g.traffic v := by
  have hnodup' : (entered ++ [e]).Nodup := nodup_append_singleton.mpr ⟨he, hnodup⟩
  rw [← g.windowAffinity_append, ← rdrop_append_singleton hw]
  exact Digraph.windowAffinity_le_traffic (hnodup'.sublist (List.take_sublist _ _)) v

theorem Bounded.exists_gains (h : r.Bounded g window entered) (hwf : r.WellFormed)
    (hsize : r.removed.size = g.size) (hnodup : entered.Nodup) (hrange : g.InRange)
    (htraffic : ∀ v, g.traffic v < 1073741824) :
    ∃ s, (g.gains e (leavingVertex window (entered ++ [e]))).foldlM increment r = .ok s := by
  have hne := ne_of_leavingVertex hw he
  have hentered := entered_le_traffic (g := g) he hnodup
  have hleft := left_le_traffic (g := g) hw he hnodup
  have hdegree := g.inDegree_le_traffic
  apply hwf.exists_increments
  · intro v hv
    rw [hsize]
    exact Digraph.lt_size_of_mem_gains hrange hne hv
  · intro v
    have hkey := h.key_le v
    have hcount := Digraph.count_gains_le (g := g) hne v
    have := hentered v
    have := hdegree v
    have := htraffic v
    omega
  · intro v
    have hpending := h.pending_ge v
    have := hleft v
    have := hdegree v
    have := htraffic v
    omega
  · intro v
    have hpending := h.pending_le v
    have hcount := Digraph.count_gains_le (g := g) hne v
    have := hentered v
    have := htraffic v
    omega

theorem Bounded.exists_losses {s : RankedList} (h : r.Bounded g window entered)
    (hwf : s.WellFormed) (hsize : r.removed.size = g.size) (hnodup : entered.Nodup)
    (hrange : g.InRange) (htraffic : ∀ v, g.traffic v < 1073741824)
    (hgained : Gained r s fun v =>
      (g.gains e (leavingVertex window (entered ++ [e]))).count v) :
    ∃ r', ((leavingVertex window (entered ++ [e])).elim [] (g.losses e)).foldlM decrement s =
      .ok r' := by
  have hne := ne_of_leavingVertex hw he
  have hentered := entered_le_traffic (g := g) he hnodup
  have hleft := left_le_traffic (g := g) hw he hnodup
  have hdegree := g.inDegree_le_traffic
  apply hwf.exists_decrements
  · intro v hv
    rw [hgained.removed, hsize]
    exact Digraph.lt_size_of_mem_losses hrange hne hv
  · intro v
    have hpending := h.pending_ge v
    have hgain := hgained.pending_le v
    have hcount := Digraph.count_losses_le (g := g) hne v
    have := hleft v
    have := hdegree v
    have := htraffic v
    omega
  · intro v
    have hpending := h.pending_le v
    have hgain := hgained.pending_le_add v
    have hcount := Digraph.count_gains_le (g := g) hne v
    have := hentered v
    have := htraffic v
    omega

/-- A slide succeeds where the traffic of every vertex is below half the range of scores. -/
theorem Bounded.exists_slide (h : r.Bounded g window entered) (hwf : r.WellFormed)
    (hsize : r.removed.size = g.size) (hnodup : entered.Nodup) (hrange : g.InRange)
    (htraffic : ∀ v, g.traffic v < 1073741824) :
    ∃ r', r.slide g e (leavingVertex window (entered ++ [e])) = .ok r' := by
  obtain ⟨s, hs⟩ := h.exists_gains hw he hwf hsize hnodup hrange htraffic
  obtain ⟨hswf, hgained⟩ := hwf.of_increments hs
  obtain ⟨r', hr'⟩ := h.exists_losses hw he hswf hsize hnodup hrange htraffic hgained
  refine ⟨r', ?_⟩
  unfold RankedList.slide
  rw [hs, ok_bind, hr']

end Slide

end RankedList

end LocalityOrder
