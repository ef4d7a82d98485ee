import LocalityOrder.Proofs.RankedList.Fold
import Mathlib.Data.List.Count

/-!
# Counting edges

The scores of a window change by one for each edge that is counted or taken back.  Counting raises
the key of an element only where nothing is pending, so a key never gets above the largest score
since it was assigned; taking back is always left pending.  Here this is followed over whole lists
of ids.
-/

namespace LocalityOrder

namespace RankedList

/-- Counts one edge more for `v`. -/
def increment (r : RankedList) (v : Vertex) : Except Fault RankedList := do
  if (← r.pending.get v) = 0 then r.raise v else r.addPending v 1

/-- Counts one edge less for `v`. -/
def decrement (r : RankedList) (v : Vertex) : Except Fault RankedList := r.addPending v (-1)

/-- The id is in the queue. -/
def IsLive (r : RankedList) (v : Vertex) : Prop := r.removed[v]? = some false

variable {r r' r'' : RankedList} {v : Vertex} {l : List Vertex} {gain gain' : Vertex → Nat}

/-! ## Counting edges more -/

/-- Each id has gained up to `gain`, and each element exactly that. -/
structure Gained (r r' : RankedList) (gain : Vertex → Nat) : Prop where
  removed : r'.removed = r.removed
  key_le : ∀ v, r.keyOf v ≤ r'.keyOf v
  key_le_add : ∀ v, r'.keyOf v ≤ r.keyOf v + gain v
  pending_le : ∀ v, r.pendingOf v ≤ r'.pendingOf v
  pending_le_add : ∀ v, r'.pendingOf v ≤ r.pendingOf v + gain v
  score : ∀ v, r.IsLive v → r'.score v = r.score v + gain v
  pending_nonpos : ∀ v, r.IsLive v → r.pendingOf v ≤ 0 → r'.pendingOf v ≤ 0
  /-- Where the key was raised, nothing was pending. -/
  key_le_score : ∀ v, r'.keyOf v = r.keyOf v ∨ (r'.keyOf v : Int) ≤ r'.score v

namespace Gained

theorem refl (r : RankedList) : Gained r r fun _ => 0 where
  removed := rfl
  key_le _ := Nat.le_refl _
  key_le_add _ := Nat.le_refl _
  pending_le _ := Int.le_refl _
  pending_le_add _ := by simp
  score _ _ := by simp
  pending_nonpos _ _ h := h
  key_le_score _ := .inl rfl

theorem trans (h : Gained r r' gain) (h' : Gained r' r'' gain') :
    Gained r r'' fun v => gain v + gain' v := by
  have hlive : ∀ v, r.IsLive v → r'.IsLive v := fun v hv => by
    unfold IsLive
    rwa [h.removed]
  refine ⟨h'.removed.trans h.removed, fun v => (h.key_le v).trans (h'.key_le v), fun v => ?_,
    fun v => Int.le_trans (h.pending_le v) (h'.pending_le v), fun v => ?_, fun v hv => ?_,
    fun v hv hneg => h'.pending_nonpos v (hlive v hv) (h.pending_nonpos v hv hneg), fun v => ?_⟩
  · have := h.key_le_add v
    have := h'.key_le_add v
    omega
  · have := h.pending_le_add v
    have := h'.pending_le_add v
    omega
  · have := h.score v hv
    have := h'.score v (hlive v hv)
    omega
  · have := h.key_le_score v
    have := h'.key_le_score v
    have := h'.key_le v
    have := h'.pending_le v
    unfold RankedList.score at *
    omega

theorem congr (h : Gained r r' gain) (heq : ∀ v, gain v = gain' v) : Gained r r' gain' :=
  funext heq ▸ h

end Gained

namespace WellFormed

theorem increment_of_lt (h : r.WellFormed) (hv : v < r.removed.size) :
    r.increment v = if r.pendingOf v = 0 then r.raise v else r.addPending v 1 := by
  unfold increment
  rw [h.get_pending hv, ok_bind]

theorem increment_of_size_le (h : r.WellFormed) (hv : r.removed.size ≤ v) :
    r.increment v = .error .indexOutOfBounds := by
  unfold increment
  rw [Table.get_eq_error_iff.mpr ⟨h.size_pending.symm ▸ hv, rfl⟩, error_bind]

-- a raised element gains by its key, and a removed id gains nothing
theorem gained_of_raise (h : r.WellFormed) (hzero : r.pendingOf v = 0)
    (hr : r.raise v = .ok r') : Gained r r' fun w => if v = w then 1 else 0 := by
  obtain ⟨-, hremoved, hpending, hkeys⟩ := h.of_raise hr
  have hsame : ∀ w, r'.pendingOf w = r.pendingOf w := fun w => by
    unfold RankedList.pendingOf
    rw [hpending]
  -- only the key of `v` changes, and only if `v` is an element
  have hkey : ∀ w, r'.keyOf w = r.keyOf w ∧ (v = w → ¬ r.IsLive v) ∨
      v = w ∧ r'.keyOf w = r.keyOf w + 1 := fun w => by
    rw [hkeys w]
    split
    next hand =>
      rw [hand.1]
      exact .inr ⟨rfl, rfl⟩
    next hnot =>
      refine .inl ⟨rfl, fun heq hlive => hnot ⟨heq.symm, ?_⟩⟩
      exact h.mem_order_iff.mpr hlive
  refine ⟨hremoved, fun w => ?_, fun w => ?_, fun w => ?_, fun w => ?_, fun w hw => ?_,
    fun w _ hneg => ?_, fun w => ?_⟩
  · have := hkey w
    omega
  · rcases hkey w with ⟨heq, -⟩ | ⟨hw, heq⟩
    · omega
    · rw [if_pos hw]
      omega
  · exact Int.le_of_eq (hsame w).symm
  · have := hsame w
    omega
  · have hpend := hsame w
    unfold RankedList.score
    rcases hkey w with ⟨heq, hdead⟩ | ⟨hvw, heq⟩
    · by_cases hvw : v = w
      · exact absurd (hvw ▸ hw) (hdead hvw)
      · rw [if_neg hvw]
        omega
    · rw [if_pos hvw]
      omega
  · have := hsame w
    omega
  · have hpend := hsame w
    unfold RankedList.score
    rcases hkey w with ⟨heq, -⟩ | ⟨rfl, heq⟩
    · exact .inl heq
    · right
      omega

-- where something is pending, the key stays and the pending change takes the gain
theorem gained_of_addPending (h : r.WellFormed) (hne : r.pendingOf v ≠ 0)
    (hr : r.addPending v 1 = .ok r') : Gained r r' fun w => if v = w then 1 else 0 := by
  obtain ⟨-, -, hremoved, hkeys, hpending⟩ := h.of_addPending hr
  have hsame : ∀ w, r'.keyOf w = r.keyOf w := fun w => by
    unfold keyOf
    rw [hkeys]
  have hpend : ∀ w, v = w ∧ r'.pendingOf w = r.pendingOf w + 1 ∨
      v ≠ w ∧ r'.pendingOf w = r.pendingOf w := fun w => by
    rw [hpending w]
    by_cases hw : v = w
    · rw [if_pos hw.symm, hw]
      exact .inl ⟨rfl, rfl⟩
    · rw [if_neg (Ne.symm hw)]
      exact .inr ⟨hw, rfl⟩
  refine ⟨hremoved, fun w => Nat.le_of_eq (hsame w).symm, fun w => ?_, fun w => ?_, fun w => ?_,
    fun w _ => ?_, fun w _ hneg => ?_, fun w => .inl (hsame w)⟩
  · have := hsame w
    omega
  · have := hpend w
    omega
  · rcases hpend w with ⟨hw, heq⟩ | ⟨hw, heq⟩
    · rw [if_pos hw]
      omega
    · rw [if_neg hw]
      omega
  · have hkey := hsame w
    unfold RankedList.score
    rcases hpend w with ⟨hw, heq⟩ | ⟨hw, heq⟩
    · rw [if_pos hw]
      omega
    · rw [if_neg hw]
      omega
  · -- a decrease that is still there does not turn into an increase
    rcases hpend w with ⟨rfl, heq⟩ | ⟨-, heq⟩
    · omega
    · omega

theorem of_increment (h : r.WellFormed) (hr : r.increment v = .ok r') :
    r'.WellFormed ∧ Gained r r' fun w => if v = w then 1 else 0 := by
  have hv : v < r.removed.size := by
    apply Nat.lt_of_not_le
    intro hle
    rw [h.increment_of_size_le hle] at hr
    cases hr
  rw [h.increment_of_lt hv] at hr
  split at hr
  next hzero => exact ⟨(h.of_raise hr).1, h.gained_of_raise hzero hr⟩
  next hne => exact ⟨(h.of_addPending hr).1, h.gained_of_addPending hne hr⟩

theorem exists_increment (h : r.WellFormed) (hv : v < r.removed.size)
    (hkey : r.keyOf v < 2147483647) (hpending : Score.Fits (r.pendingOf v + 1)) :
    ∃ r', r.increment v = .ok r' := by
  rw [h.increment_of_lt hv]
  split
  next => exact h.exists_raise hv hkey
  next => exact h.exists_addPending hv hpending

/-- Counting the ids of a list, each id gains as often as the list names it. -/
theorem of_increments (h : r.WellFormed) (hr : l.foldlM increment r = .ok r') :
    r'.WellFormed ∧ Gained r r' fun v => l.count v := by
  induction l generalizing r with
  | nil =>
    cases hr
    exact ⟨h, (Gained.refl _).congr fun _ => rfl⟩
  | cons u rest ih =>
    rw [List.foldlM_cons] at hr
    obtain ⟨r₁, hstep, hrest⟩ := bind_eq_ok_iff.mp hr
    obtain ⟨hwf₁, hgained₁⟩ := h.of_increment hstep
    obtain ⟨hwf, hgained⟩ := ih hwf₁ hrest
    refine ⟨hwf, (hgained₁.trans hgained).congr fun v => ?_⟩
    rw [List.count_cons]
    simp only [beq_iff_eq]
    omega

theorem exists_increments (h : r.WellFormed) (hlt : ∀ v ∈ l, v < r.removed.size)
    (hkey : ∀ v, r.keyOf v + l.count v ≤ 2147483647)
    (hlow : ∀ v, -2147483648 ≤ r.pendingOf v)
    (hhigh : ∀ v, r.pendingOf v + l.count v ≤ 2147483647) :
    ∃ r', l.foldlM increment r = .ok r' := by
  induction l generalizing r with
  | nil => exact ⟨r, rfl⟩
  | cons u rest ih =>
    have hu : (u :: rest).count u = rest.count u + 1 := List.count_cons_self
    obtain ⟨r₁, hstep⟩ : ∃ r₁, r.increment u = .ok r₁ := by
      have hkey' := hkey u
      have hlow' := hlow u
      have hhigh' := hhigh u
      rw [hu] at hkey' hhigh'
      apply h.exists_increment (hlt u List.mem_cons_self) (by omega)
      unfold Score.Fits
      omega
    obtain ⟨hwf₁, hgained₁⟩ := h.of_increment hstep
    rw [List.foldlM_cons, hstep, ok_bind]
    have hcount : ∀ v, (u :: rest).count v = rest.count v + if u = v then 1 else 0 := fun v => by
      rw [List.count_cons]
      simp only [beq_iff_eq]
    refine ih hwf₁ (fun v hv => ?_) (fun v => ?_) (fun v => ?_) fun v => ?_
    · rw [hgained₁.removed]
      exact hlt v (List.mem_cons_of_mem u hv)
    · have := hgained₁.key_le_add v
      have := hkey v
      have := hcount v
      omega
    · have := hgained₁.pending_le v
      have := hlow v
      omega
    · have := hgained₁.pending_le_add v
      have := hhigh v
      have := hcount v
      omega

/-! ## Counting edges less -/

-- Taking back the ids of a list, each id loses as often as the list names it.
theorem of_decrements (h : r.WellFormed) (hr : l.foldlM decrement r = .ok r') :
    r'.WellFormed ∧ r'.order = r.order ∧ r'.removed = r.removed ∧ r'.keys = r.keys ∧
      ∀ v, r'.pendingOf v = r.pendingOf v - l.count v := by
  induction l generalizing r with
  | nil =>
    cases hr
    exact ⟨h, rfl, rfl, rfl, by simp⟩
  | cons u rest ih =>
    rw [List.foldlM_cons] at hr
    obtain ⟨r₁, hstep, hrest⟩ := bind_eq_ok_iff.mp hr
    obtain ⟨hwf₁, horder₁, hremoved₁, hkeys₁, hpending₁⟩ := h.of_addPending hstep
    obtain ⟨hwf, horder, hremoved, hkeys, hpending⟩ := ih hwf₁ hrest
    refine ⟨hwf, horder.trans horder₁, hremoved.trans hremoved₁, hkeys.trans hkeys₁, fun v => ?_⟩
    rw [hpending v, hpending₁ v, List.count_cons]
    by_cases hv : v = u
    · simp only [hv, if_true, beq_self_eq_true]
      omega
    · simp only [hv, Ne.symm hv, if_false, beq_iff_eq]
      omega

theorem exists_decrements (h : r.WellFormed) (hlt : ∀ v ∈ l, v < r.removed.size)
    (hlow : ∀ v, -2147483648 ≤ r.pendingOf v - l.count v)
    (hhigh : ∀ v, r.pendingOf v ≤ 2147483647) :
    ∃ r', l.foldlM decrement r = .ok r' := by
  induction l generalizing r with
  | nil => exact ⟨r, rfl⟩
  | cons u rest ih =>
    have hu : (u :: rest).count u = rest.count u + 1 := List.count_cons_self
    obtain ⟨r₁, hstep⟩ : ∃ r₁, r.decrement u = .ok r₁ := by
      have hlow' := hlow u
      have hhigh' := hhigh u
      rw [hu] at hlow'
      apply h.exists_addPending (hlt u List.mem_cons_self)
      unfold Score.Fits
      omega
    obtain ⟨hwf₁, -, hremoved₁, -, hpending₁⟩ := h.of_addPending hstep
    rw [List.foldlM_cons, hstep, ok_bind]
    refine ih hwf₁ (fun v hv => ?_) (fun v => ?_) fun v => ?_
    · rw [hremoved₁]
      exact hlt v (List.mem_cons_of_mem u hv)
    · have := hlow v
      rw [hpending₁ v]
      by_cases hv : v = u
      · subst hv
        rw [if_pos rfl]
        omega
      · rw [List.count_cons_of_ne (Ne.symm hv)] at this
        rw [if_neg hv]
        exact this
    · have := hhigh v
      rw [hpending₁ v]
      split
      · next heq =>
        subst heq
        omega
      · exact this

end WellFormed

end RankedList

end LocalityOrder
