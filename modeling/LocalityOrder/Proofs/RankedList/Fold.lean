import LocalityOrder.Proofs.RankedList.WellFormed
import Mathlib.Algebra.Order.BigOperators.Group.List
import Mathlib.Algebra.Order.Ring.Nat

/-!
# Folding pending decreases

Before the best element of a ranked list is taken, pending decreases are folded into keys until the
first element stays.  No score changes by that (`Folded`), every fold lowers a key, so the folding
ends, and when it ends no other key is above what one more fold would leave of the first one
(`Settled`).
-/

namespace LocalityOrder

open RankedList (foldedKey folded)

/-! ## One fold -/

theorem cast_foldedKey (key : Nat) {pending : Int} (h : pending ≤ 0) :
    (foldedKey key pending : Int) = max 0 (key + pending + -pending / 2) := by
  unfold foldedKey
  omega

theorem eq_of_folded {key lower : Nat} {pending left : Int}
    (h : folded key pending = .ok (lower, left)) :
    lower = foldedKey key pending ∧ left = key + pending - lower := by
  unfold folded at h
  dsimp only at h
  split at h
  next =>
    cases h
    exact ⟨rfl, rfl⟩
  next => cases h

-- With a decrease pending, a fold stays within the range of scores.
theorem folded_eq_ok {key : Nat} {pending : Int} (hkey : key ≤ 2147483647)
    (hlow : -2147483648 ≤ pending) (hneg : pending < 0) :
    folded key pending = .ok (foldedKey key pending, key + pending - foldedKey key pending) := by
  have hlower := cast_foldedKey key (Int.le_of_lt hneg)
  apply if_pos
  unfold Score.Fits
  omega

-- A fold leaves a decrease pending, or nothing.
theorem sub_foldedKey_nonpos (key : Nat) {pending : Int} (hneg : pending < 0) :
    key + pending - foldedKey key pending ≤ 0 := by
  have hlower := cast_foldedKey key (Int.le_of_lt hneg)
  omega

-- A folded key lies at most halfway from the score up to the key.
theorem two_mul_foldedKey_le (key : Nat) {pending : Int} (hneg : pending ≤ 0)
    (hscore : 0 ≤ key + pending) :
    2 * (foldedKey key pending : Int) ≤ (key + pending) + key := by
  have hlower := cast_foldedKey key hneg
  omega

namespace RankedList

variable {r r' r'' : RankedList} {v u : Vertex}

/-! ## What folding changes -/

/-- The second list comes from the first one by folding pending decreases. -/
structure Folded (r r' : RankedList) : Prop where
  removed : r'.removed = r.removed
  score : ∀ u, r'.score u = r.score u
  /-- A key is lowered only where a decrease is pending, and a decrease stays one. -/
  fold : ∀ u, r'.keyOf u = r.keyOf u ∨
    r'.keyOf u < r.keyOf u ∧ r.pendingOf u < 0 ∧ r'.pendingOf u ≤ 0

namespace Folded

theorem refl (r : RankedList) : Folded r r := ⟨rfl, fun _ => rfl, fun _ => .inl rfl⟩

theorem pending_eq (h : Folded r r') (u : Vertex) :
    r'.pendingOf u = r.pendingOf u + r.keyOf u - r'.keyOf u := by
  have := h.score u
  unfold RankedList.score at this
  omega

theorem key_le (h : Folded r r') (u : Vertex) : r'.keyOf u ≤ r.keyOf u := by
  have := h.fold u
  omega

theorem trans (h : Folded r r') (h' : Folded r' r'') : Folded r r'' := by
  refine ⟨h'.removed.trans h.removed, fun u => (h'.score u).trans (h.score u), fun u => ?_⟩
  have hpending := h.pending_eq u
  have hpending' := h'.pending_eq u
  have hfold := h.fold u
  have hfold' := h'.fold u
  omega

theorem pending_nonpos (h : Folded r r') (hu : r.pendingOf u ≤ 0) : r'.pendingOf u ≤ 0 := by
  have hpending := h.pending_eq u
  have hfold := h.fold u
  omega

end Folded

/-! ## Folding at the head -/

/-- The first element stays: no other key is above its own, nor above what a fold of its pending
decrease leaves of it. -/
def Settled (r : RankedList) : Prop :=
  ∀ v rest, r.order = v :: rest → ∀ u ∈ rest, r.keyOf u ≤ r.keyOf v ∧
    (r.pendingOf v < 0 → r.keyOf u ≤ foldedKey (r.keyOf v) (r.pendingOf v))

/-- The sum of the keys, which every sinking lowers. -/
def keySum (r : RankedList) : Nat := (r.order.map r.keyOf).sum

namespace WellFormed

theorem sinkHead_of_cons_cons (h : r.WellFormed) {next : Vertex} {rest : List Vertex}
    (horder : r.order = v :: next :: rest) :
    r.sinkHead = if 0 ≤ r.pendingOf v then .ok (false, r) else do
      let (lower, left) ← folded (r.keyOf v) (r.pendingOf v)
      if r.keyOf next ≤ lower then
        return (false, r)
      let keys ← r.keys.put v lower
      let pending ← r.pending.put v left
      return (true, { r with
        order := insertByKey r.keyOf lower v (next :: rest), keys, pending }) := by
  have hv : v < r.removed.size := h.lt_of_mem (by rw [horder]; exact List.mem_cons_self)
  unfold sinkHead
  simp only [horder]
  rw [h.get_pending hv, ok_bind, h.get_keys hv, ok_bind]
  rfl

-- the head stays if not even a fold puts it below the second element
theorem settled_of_le (h : r.WellFormed) {next : Vertex} {rest : List Vertex}
    (horder : r.order = v :: next :: rest)
    (hnext : r.pendingOf v < 0 → r.keyOf next ≤ foldedKey (r.keyOf v) (r.pendingOf v)) :
    r.Settled := by
  have hdescends := h.descends
  rw [horder] at hdescends
  intro v' rest' hrest u hu
  rw [horder] at hrest
  cases hrest
  have hhead := hdescends.le_head (List.mem_cons_of_mem v hu)
  have hsecond := hdescends.of_cons.le_head hu
  exact ⟨hhead, fun hneg => hsecond.trans (hnext hneg)⟩

-- a head that sinks has been folded, and its key is lower than before
theorem of_sink {s : RankedList} {next : Vertex} {rest : List Vertex} {lower : Nat} {left : Int}
    {keys : Table Nat} {pending : Table Score} (h : r.WellFormed)
    (horder : r.order = v :: next :: rest) (hneg : r.pendingOf v < 0)
    (hfold : folded (r.keyOf v) (r.pendingOf v) = .ok (lower, left))
    (hlt : lower < r.keyOf next) (hkeys : r.keys.put v lower = .ok keys)
    (hput : r.pending.put v left = .ok pending)
    (hs : s = { r with order := insertByKey r.keyOf lower v (next :: rest), keys, pending }) :
    s.WellFormed ∧ Folded r s ∧ s.keySum < r.keySum := by
  subst hs
  obtain ⟨hlower, hleft⟩ := eq_of_folded hfold
  have herase : r.order.erase v = next :: rest := by rw [horder, List.erase_cons_head]
  have hmem : v ∈ r.order := by
    rw [horder]
    exact List.mem_cons_self
  have hv : v ∉ next :: rest := herase ▸ h.nodup.not_mem_erase
  have hwf := h.insertByKey_erase hmem hkeys (Table.size_of_put hput)
  rw [herase] at hwf
  have hdescends := h.descends
  rw [horder] at hdescends
  have hnext : r.keyOf next ≤ r.keyOf v :=
    hdescends.le_head (List.mem_cons_of_mem v List.mem_cons_self)
  have hnonpos := sub_foldedKey_nonpos (r.keyOf v) hneg
  have hkeyOf : ∀ u, (keys[u]?.getD 0) = if v = u then lower else r.keyOf u :=
    fun u => Table.getD_of_put hkeys u 0
  have hpendingOf : ∀ u, (pending[u]?.getD 0) = if v = u then left else r.pendingOf u :=
    fun u => Table.getD_of_put hput u 0
  refine ⟨hwf, ⟨rfl, fun u => ?_, fun u => ?_⟩, ?_⟩
  · -- what the key loses, the pending change gains
    unfold RankedList.score keyOf RankedList.pendingOf
    rw [hkeyOf, hpendingOf]
    by_cases hu : v = u
    · rw [if_pos hu, if_pos hu, hleft, ← hu]
      change _ = (r.keyOf v : Int) + r.pendingOf v
      omega
    · rw [if_neg hu, if_neg hu]
      rfl
  · unfold keyOf RankedList.pendingOf
    rw [hkeyOf, hpendingOf]
    by_cases hu : v = u
    · rw [if_pos hu, if_pos hu, ← hu]
      change _ ∨ lower < r.keyOf v ∧ r.pendingOf v < 0 ∧ _
      omega
    · exact .inl (if_neg hu)
  · have hsame : ∀ u ∈ next :: rest, (keys[u]?.getD 0) = r.keyOf u := fun u hu => by
      apply (hkeyOf u).trans
      apply if_neg
      rintro rfl
      exact hv hu
    have hsum : ((next :: rest).map fun u => keys[u]?.getD 0) = (next :: rest).map r.keyOf :=
      List.map_congr_left hsame
    unfold keySum
    change ((LocalityOrder.insertByKey r.keyOf lower v (next :: rest)).map
      fun u => keys[u]?.getD 0).sum < _
    rw [(insertByKey_perm.map _).sum_eq, horder, List.map_cons, hsum, hkeyOf, if_pos rfl]
    simp only [List.map_cons, List.sum_cons]
    omega

/-- What looking at the head can do: the head stays, or its decrease is folded and it is put where
its lower key belongs. -/
theorem sinkHead_cases {sank : Bool} (h : r.WellFormed) (hr : r.sinkHead = .ok (sank, r')) :
    (sank = false ∧ r' = r ∧ r.Settled) ∨
      ∃ v next rest lower left keys pending, sank = true ∧ r.order = v :: next :: rest ∧
        r.pendingOf v < 0 ∧ folded (r.keyOf v) (r.pendingOf v) = .ok (lower, left) ∧
        lower < r.keyOf next ∧ r.keys.put v lower = .ok keys ∧ r.pending.put v left = .ok pending ∧
        r' = { r with order := insertByKey r.keyOf lower v (next :: rest), keys, pending } := by
  match horder : r.order with
  | [] =>
    unfold sinkHead at hr
    simp only [horder] at hr
    cases hr
    exact .inl ⟨rfl, rfl, fun v rest hrest => by simp [horder] at hrest⟩
  | [v] =>
    unfold sinkHead at hr
    simp only [horder] at hr
    cases hr
    refine .inl ⟨rfl, rfl, fun v' rest hrest u hu => ?_⟩
    rw [horder] at hrest
    cases hrest
    cases hu
  | v :: next :: rest =>
    rw [h.sinkHead_of_cons_cons horder] at hr
    split at hr
    next hpending =>
      cases hr
      exact .inl ⟨rfl, rfl, h.settled_of_le horder fun hneg => by omega⟩
    next hpending =>
      obtain ⟨⟨lower, left⟩, hfold, h₁⟩ := bind_eq_ok_iff.mp hr
      dsimp only at h₁
      split at h₁
      next hle =>
        cases h₁
        exact .inl ⟨rfl, rfl, h.settled_of_le horder fun _ => (eq_of_folded hfold).1 ▸ hle⟩
      next hlt =>
        obtain ⟨keys, hkeys, h₂⟩ := bind_eq_ok_iff.mp h₁
        obtain ⟨pending, hput, h₃⟩ := bind_eq_ok_iff.mp h₂
        obtain ⟨rfl, rfl⟩ := Prod.mk.inj (Except.ok.inj h₃)
        exact .inr ⟨v, next, rest, lower, left, keys, pending, rfl, rfl,
          Int.lt_of_not_ge hpending, hfold, Nat.lt_of_not_le hlt, hkeys, hput, rfl⟩

-- Sinking folds a decrease and lowers the sum of the keys, and where nothing sinks the list is
-- settled.
theorem of_sinkHead {sank : Bool} (h : r.WellFormed) (hr : r.sinkHead = .ok (sank, r')) :
    r'.WellFormed ∧ Folded r r' ∧ (sank = true → r'.keySum < r.keySum) ∧
      (sank = false → r' = r ∧ r.Settled) := by
  rcases h.sinkHead_cases hr with ⟨rfl, rfl, hsettled⟩ |
    ⟨v, next, rest, lower, left, keys, pending, rfl, horder, hneg, hfold, hlt, hkeys, hput, hs⟩
  · exact ⟨h, .refl _, nofun, fun _ => ⟨rfl, hsettled⟩⟩
  · obtain ⟨hwf, hfolded, hless⟩ := h.of_sink horder hneg hfold hlt hkeys hput hs
    exact ⟨hwf, hfolded, fun _ => hless, nofun⟩

-- Settling only folds, and it ends where nothing sinks any more.
theorem of_settle {fuel : Nat} (h : r.WellFormed) (hr : settle fuel r = .ok r') :
    r'.WellFormed ∧ Folded r r' ∧ r'.Settled := by
  induction fuel generalizing r with
  | zero => cases hr
  | succ fuel ih =>
    rw [settle] at hr
    obtain ⟨⟨sank, r₁⟩, hsink, hrest⟩ := bind_eq_ok_iff.mp hr
    obtain ⟨hwf, hfolded, -, hstays⟩ := h.of_sinkHead hsink
    cases sank with
    | false =>
      obtain ⟨rfl, hsettled⟩ := hstays rfl
      cases hrest
      exact ⟨hwf, hfolded, hsettled⟩
    | true =>
      obtain ⟨hwf', hfolded', hsettled⟩ := ih hwf hrest
      exact ⟨hwf', hfolded.trans hfolded', hsettled⟩

end WellFormed

end RankedList

end LocalityOrder
