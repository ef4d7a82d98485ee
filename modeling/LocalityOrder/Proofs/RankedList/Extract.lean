import LocalityOrder.Proofs.RankedList.Fold

/-!
# Taking the best element of a ranked list

Taking the best element settles the list and removes its head.  It succeeds whenever there is an
element and every key and every pending decrease is a score: a fold then stays in range, and the
settling ends because the keys of `n` elements, none above the first one, sum up to at most `n`
times its key.
-/

namespace LocalityOrder

namespace RankedList

variable {r r' : RankedList} {v : Vertex}

/-- Every key is a score and every pending change of an element is in range from below, so that
decreases can be folded. -/
def Foldable (r : RankedList) : Prop :=
  ∀ v ∈ r.order, r.keyOf v ≤ 2147483647 ∧ -2147483648 ≤ r.pendingOf v

/-- Taking the best element settles the list and removes the element that is then first. -/
theorem eq_of_extractMax (hr : r.extractMax = .ok (v, r')) :
    ∃ first tail s rest, r.order = first :: tail ∧
      settle (r.order.length * r.keyOf first + 1) r = .ok s ∧ s.order = v :: rest ∧
      s.remove v = .ok r' := by
  unfold extractMax at hr
  match horder : r.order with
  | [] =>
    rw [horder] at hr
    cases hr
  | first :: tail =>
    rw [horder] at hr
    obtain ⟨s, hsettle, hrest⟩ := bind_eq_ok_iff.mp hr
    match hs : s.order with
    | [] =>
      rw [hs] at hrest
      cases hrest
    | w :: rest =>
      rw [hs] at hrest
      obtain ⟨r₁, hremove, heq⟩ := bind_eq_ok_iff.mp hrest
      cases heq
      exact ⟨first, tail, s, rest, rfl, hsettle, hs, hremove⟩

namespace WellFormed

theorem foldable_of_folded (h : r.WellFormed) (h' : r'.WellFormed) (hfolded : Folded r r')
    (hfits : r.Foldable) : r'.Foldable := by
  intro v hv
  have hfit := hfits v ((h.mem_congr h' hfolded.removed).mp hv)
  have hkey := hfolded.key_le v
  have hpending := hfolded.pending_eq v
  omega

theorem exists_sinkHead (h : r.WellFormed) (hfits : r.Foldable) :
    ∃ sank r', r.sinkHead = .ok (sank, r') := by
  match horder : r.order with
  | [] =>
    unfold sinkHead
    rw [horder]
    exact ⟨_, _, rfl⟩
  | [v] =>
    unfold sinkHead
    rw [horder]
    exact ⟨_, _, rfl⟩
  | v :: next :: rest =>
    have hmem : v ∈ r.order := by
      rw [horder]
      exact List.mem_cons_self
    have hv := h.lt_of_mem hmem
    obtain ⟨hkey, hlow⟩ := hfits v hmem
    rw [h.sinkHead_of_cons_cons horder]
    split
    next => exact ⟨_, _, rfl⟩
    next hpending =>
      rw [folded_eq_ok hkey hlow (Int.lt_of_not_ge hpending), ok_bind]
      dsimp only
      split
      next => exact ⟨_, _, rfl⟩
      next =>
        obtain ⟨keys, hkeys, -⟩ :=
          Table.exists_put (h.size_keys.symm ▸ hv) (foldedKey (r.keyOf v) (r.pendingOf v))
        obtain ⟨pending, hput, -⟩ := Table.exists_put (h.size_pending.symm ▸ hv)
          (r.keyOf v + r.pendingOf v - foldedKey (r.keyOf v) (r.pendingOf v))
        rw [hkeys, ok_bind, hput, ok_bind]
        exact ⟨_, _, rfl⟩

-- The keys bound the number of sinkings.
theorem exists_settle {fuel : Nat} (h : r.WellFormed) (hfits : r.Foldable)
    (hfuel : r.keySum < fuel) : ∃ r', settle fuel r = .ok r' := by
  induction fuel generalizing r with
  | zero => exact absurd hfuel (Nat.not_lt_zero _)
  | succ fuel ih =>
    obtain ⟨sank, r₁, hsink⟩ := h.exists_sinkHead hfits
    obtain ⟨hwf, hfolded, hless, -⟩ := h.of_sinkHead hsink
    rw [settle, hsink, ok_bind]
    cases sank with
    | false => exact ⟨r₁, rfl⟩
    | true =>
      have := hless rfl
      exact ih hwf (h.foldable_of_folded hwf hfolded hfits) (by omega)

theorem keySum_le (h : r.WellFormed) {rest : List Vertex} (horder : r.order = v :: rest) :
    r.keySum ≤ r.order.length * r.keyOf v := by
  have hdescends := h.descends
  rw [horder] at hdescends
  have hle : ∀ key ∈ r.order.map r.keyOf, key ≤ r.keyOf v := by
    intro key hkey
    obtain ⟨u, hu, rfl⟩ := List.mem_map.mp hkey
    exact hdescends.le_head (horder ▸ hu)
  have hsum := List.sum_le_card_nsmul _ _ hle
  rwa [List.length_map, nsmul_eq_mul, Nat.cast_id] at hsum

/-- The best element is the head of the settled list, and taking it removes it. -/
theorem of_extractMax (h : r.WellFormed) (hr : r.extractMax = .ok (v, r')) :
    ∃ s rest, s.WellFormed ∧ Folded r s ∧ s.Settled ∧ s.order = v :: rest ∧
      s.remove v = .ok r' := by
  obtain ⟨first, tail, s, rest, -, hsettle, horder, hremove⟩ := eq_of_extractMax hr
  obtain ⟨hwf, hfolded, hsettled⟩ := h.of_settle hsettle
  exact ⟨s, rest, hwf, hfolded, hsettled, horder, hremove⟩

theorem exists_extractMax (h : r.WellFormed) (hfits : r.Foldable) (hne : r.order ≠ []) :
    ∃ v r', r.extractMax = .ok (v, r') := by
  match horder : r.order with
  | [] => exact absurd horder hne
  | first :: tail =>
    have hsum := h.keySum_le horder
    obtain ⟨s, hsettle⟩ := h.exists_settle hfits (Nat.lt_succ_of_le hsum)
    obtain ⟨hwf, hfolded, -⟩ := h.of_settle hsettle
    unfold extractMax
    rw [horder] at hsettle ⊢
    dsimp only
    rw [Nat.succ_eq_add_one] at hsettle
    rw [hsettle, ok_bind]
    match hs : s.order with
    | [] => exact absurd hs (h.ne_nil_congr hwf hfolded.removed hne)
    | w :: rest =>
      have hw : w < s.removed.size := hwf.lt_of_mem (hs ▸ List.mem_cons_self)
      obtain ⟨r₁, hremove⟩ := exists_remove hw
      dsimp only
      rw [hremove, ok_bind]
      exact ⟨_, _, rfl⟩

end WellFormed

end RankedList

end LocalityOrder
