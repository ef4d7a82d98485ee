import LocalityOrder.RankedList
import LocalityOrder.Proofs.Checked
import LocalityOrder.Proofs.RankedList.Descends

/-!
# Well-formed ranked lists

In a well-formed ranked list the order holds every id that was not removed, once, and descends by
key.  Each operation keeps this, and each is described here by what it does to the key and to the
pending change of every id.
-/

namespace LocalityOrder

theorem RankedList.raisedKey_eq_ok_iff {key raised : Nat} :
    raisedKey key = .ok raised ↔ key < 2147483647 ∧ key + 1 = raised := by
  have hfits : Score.Fits (key + 1) ↔ key < 2147483647 := by
    unfold Score.Fits
    omega
  unfold raisedKey
  rw [if_congr hfits rfl rfl]
  split
  next hlt => simp [hlt]
  next hle => simp [hle]

namespace RankedList

/-- The pending change of an id, zero for what is no id. -/
def pendingOf (r : RankedList) (v : Vertex) : Int := r.pending[v]?.getD 0

/-- The key that an id would have without pending changes. -/
def score (r : RankedList) (v : Vertex) : Int := r.keyOf v + r.pendingOf v

structure WellFormed (r : RankedList) : Prop where
  nodup : r.order.Nodup
  descends : Descends r.keyOf r.order
  mem_order_iff : ∀ {v : Vertex}, v ∈ r.order ↔ r.removed[v]? = some false
  size_keys : r.keys.size = r.removed.size
  size_pending : r.pending.size = r.removed.size

namespace WellFormed

variable {r r' : RankedList} {v w : Vertex} {key : Nat} {change : Int}

theorem lt_of_mem (h : r.WellFormed) (hv : v ∈ r.order) : v < r.removed.size :=
  (Array.getElem?_eq_some_iff.mp (h.mem_order_iff.mp hv)).1

theorem removed_eq_true (h : r.WellFormed) (hv : v < r.removed.size) (hnot : v ∉ r.order) :
    r.removed[v]? = some true := by
  have hentry : r.removed[v]? = some r.removed.cells[v] := Array.getElem?_eq_getElem hv
  rw [h.mem_order_iff, hentry] at hnot
  rw [hentry]
  simpa using hnot

-- Two well-formed lists with the same ids removed hold the same elements.
theorem mem_congr (h : r.WellFormed) (h' : r'.WellFormed) (heq : r'.removed = r.removed) :
    v ∈ r'.order ↔ v ∈ r.order := by
  rw [h.mem_order_iff, h'.mem_order_iff, heq]

theorem ne_nil_congr (h : r.WellFormed) (h' : r'.WellFormed) (heq : r'.removed = r.removed)
    (hne : r.order ≠ []) : r'.order ≠ [] := by
  obtain ⟨v, hv⟩ := List.exists_mem_of_ne_nil _ hne
  exact List.ne_nil_of_mem ((h.mem_congr h' heq).mpr hv)

theorem erase_eq (h : r.WellFormed) {l₁ l₂ : List Vertex} (horder : r.order = l₁ ++ v :: l₂) :
    r.order.erase v = l₁ ++ l₂ := by
  have hnodup := horder ▸ h.nodup
  have hv : v ∉ l₁ := fun hmem =>
    (List.nodup_append.mp hnodup).2.2 v hmem v List.mem_cons_self rfl
  rw [horder, List.erase_append_right _ hv, List.erase_cons_head]

theorem get_keys (h : r.WellFormed) (hv : v < r.removed.size) :
    r.keys.get v = .ok (r.keyOf v) := Table.get_of_lt (h.size_keys.symm ▸ hv) 0

theorem get_pending (h : r.WellFormed) (hv : v < r.removed.size) :
    r.pending.get v = .ok (r.pendingOf v) := Table.get_of_lt (h.size_pending.symm ▸ hv) 0

/-! ## Moving an element -/

-- An element that is put where its new key belongs leaves the list well-formed.
theorem insertByKey_erase (h : r.WellFormed) (hv : v ∈ r.order) {keys : Table Nat}
    (hkeys : r.keys.put v key = .ok keys) {pending : Table Score}
    (hsize : pending.size = r.pending.size) :
    WellFormed { r with
      order := insertByKey r.keyOf key v (r.order.erase v), keys, pending } where
  nodup := by
    refine (insertByKey_perm.nodup_iff).mpr (List.nodup_cons.mpr ⟨?_, h.nodup.erase v⟩)
    exact h.nodup.not_mem_erase
  descends := by
    refine (h.descends.sublist List.erase_sublist).insertByKey (fun w hw => ?_) ?_
    · have hne : v ≠ w := fun heq => h.nodup.not_mem_erase (heq ▸ hw)
      rw [keyOf, Table.getD_of_put hkeys, if_neg hne]
      rfl
    · rw [keyOf, Table.getD_of_put hkeys, if_pos rfl]
  mem_order_iff := by
    intro w
    rw [mem_insertByKey, h.nodup.mem_erase_iff, ← h.mem_order_iff]
    by_cases hw : w = v
    · simp [hw, hv]
    · simp [hw]
  size_keys := (Table.size_of_put hkeys).trans h.size_keys
  size_pending := hsize.trans h.size_pending

/-! ## Raising a key -/

theorem raise_of_mem (h : r.WellFormed) (hv : v ∈ r.order) :
    r.raise v = do
      let raised ← raisedKey (r.keyOf v)
      let keys ← r.keys.put v raised
      return { r with order := insertByKey r.keyOf (r.keyOf v + 1) v (r.order.erase v), keys } := by
  unfold raise
  rw [Table.get_eq_ok_iff.mpr (h.mem_order_iff.mp hv), ok_bind, if_neg (by decide),
    h.get_keys (h.lt_of_mem hv), ok_bind]
  rfl

theorem raise_of_not_mem (h : r.WellFormed) (hv : v < r.removed.size) (hnot : v ∉ r.order) :
    r.raise v = .ok r := by
  unfold raise
  rw [Table.get_eq_ok_iff.mpr (h.removed_eq_true hv hnot), ok_bind, if_pos rfl, pure_eq_ok]

theorem raise_of_size_le (hv : r.removed.size ≤ v) : r.raise v = .error .indexOutOfBounds := by
  unfold raise
  rw [Table.get_eq_error_iff.mpr ⟨hv, rfl⟩, error_bind]

/-- Raising an element raises its key by one, and raising a removed id does nothing. -/
theorem of_raise (h : r.WellFormed) (hr : r.raise v = .ok r') :
    r'.WellFormed ∧ r'.removed = r.removed ∧ r'.pending = r.pending ∧
      ∀ w, r'.keyOf w = if w = v ∧ v ∈ r.order then r.keyOf v + 1 else r.keyOf w := by
  by_cases hv : v ∈ r.order
  · rw [h.raise_of_mem hv] at hr
    obtain ⟨raised, hraised, hrest⟩ := bind_eq_ok_iff.mp hr
    obtain ⟨keys, hkeys, heq⟩ := bind_eq_ok_iff.mp hrest
    obtain rfl : r.keyOf v + 1 = raised := (raisedKey_eq_ok_iff.mp hraised).2
    cases heq
    refine ⟨h.insertByKey_erase hv hkeys rfl, rfl, rfl, fun w => ?_⟩
    rw [keyOf, Table.getD_of_put hkeys]
    by_cases hw : w = v
    · rw [if_pos hw.symm, if_pos ⟨hw, hv⟩]
    · rw [if_neg (Ne.symm hw), if_neg fun hand => hw hand.1]
      rfl
  · have hlt : v < r.removed.size := by
      apply Nat.lt_of_not_le
      intro hle
      rw [raise_of_size_le hle] at hr
      cases hr
    rw [h.raise_of_not_mem hlt hv] at hr
    cases hr
    exact ⟨h, rfl, rfl, fun w => by rw [if_neg fun hand => hv hand.2]⟩

theorem exists_raise (h : r.WellFormed) (hv : v < r.removed.size)
    (hkey : r.keyOf v < 2147483647) : ∃ r', r.raise v = .ok r' := by
  by_cases hmem : v ∈ r.order
  · obtain ⟨keys, hkeys, -⟩ := Table.exists_put (h.size_keys.symm ▸ hv) (r.keyOf v + 1)
    rw [h.raise_of_mem hmem, raisedKey_eq_ok_iff.mpr ⟨hkey, rfl⟩, ok_bind, hkeys, ok_bind]
    exact ⟨_, rfl⟩
  · exact ⟨r, h.raise_of_not_mem hv hmem⟩

/-! ## Pending changes -/

theorem of_setPending (h : r.WellFormed) (hr : r.setPending v change = .ok r') :
    r'.WellFormed ∧ r'.order = r.order ∧ r'.removed = r.removed ∧ r'.keys = r.keys ∧
      ∀ w, r'.pendingOf w = if w = v then change else r.pendingOf w := by
  unfold setPending at hr
  obtain ⟨pending, hput, hr⟩ := bind_eq_ok_iff.mp hr
  cases hr
  refine ⟨⟨h.nodup, h.descends, h.mem_order_iff, h.size_keys,
    (Table.size_of_put hput).trans h.size_pending⟩, rfl, rfl, rfl, fun w => ?_⟩
  rw [pendingOf, Table.getD_of_put hput]
  by_cases hw : w = v
  · rw [if_pos hw.symm, if_pos hw]
  · rw [if_neg (Ne.symm hw), if_neg hw]
    rfl

theorem exists_setPending (h : r.WellFormed) (hv : v < r.removed.size) (change : Int) :
    ∃ r', r.setPending v change = .ok r' := by
  obtain ⟨pending, hput, -⟩ := Table.exists_put (h.size_pending.symm ▸ hv) change
  unfold setPending
  rw [hput, ok_bind]
  exact ⟨_, rfl⟩

-- Adding to a pending change is setting it to the sum, if the sum is in range.
theorem addPending_of_lt (h : r.WellFormed) (hv : v < r.removed.size) :
    r.addPending v change =
      (Score.checked (r.pendingOf v + change)).bind (r.setPending v) := by
  unfold addPending
  rw [h.get_pending hv, ok_bind]
  rfl

theorem addPending_of_size_le (h : r.WellFormed) (hv : r.removed.size ≤ v) :
    r.addPending v change = .error .indexOutOfBounds := by
  unfold addPending
  rw [Table.get_eq_error_iff.mpr ⟨h.size_pending.symm ▸ hv, rfl⟩, error_bind]

theorem setPending_of_addPending (h : r.WellFormed) (hr : r.addPending v change = .ok r') :
    Score.Fits (r.pendingOf v + change) ∧ r.setPending v (r.pendingOf v + change) = .ok r' := by
  have hv : v < r.removed.size := by
    apply Nat.lt_of_not_le
    intro hle
    rw [h.addPending_of_size_le hle] at hr
    cases hr
  rw [h.addPending_of_lt hv] at hr
  obtain ⟨changed, hchanged, hr⟩ := bind_eq_ok_iff.mp hr
  obtain ⟨hfits, rfl⟩ := Score.checked_eq_ok_iff.mp hchanged
  exact ⟨hfits, hr⟩

theorem of_addPending (h : r.WellFormed) (hr : r.addPending v change = .ok r') :
    r'.WellFormed ∧ r'.order = r.order ∧ r'.removed = r.removed ∧ r'.keys = r.keys ∧
      ∀ w, r'.pendingOf w = if w = v then r.pendingOf v + change else r.pendingOf w :=
  h.of_setPending (h.setPending_of_addPending hr).2

theorem exists_addPending (h : r.WellFormed) (hv : v < r.removed.size)
    (hfits : Score.Fits (r.pendingOf v + change)) : ∃ r', r.addPending v change = .ok r' := by
  rw [h.addPending_of_lt hv, Score.checked_eq_ok hfits]
  exact h.exists_setPending hv _

/-! ## Removing -/

-- A removed id leaves the order, whether it was in it or not.
theorem of_remove (h : r.WellFormed) (hr : r.remove v = .ok r') :
    r'.WellFormed ∧ r'.order = r.order.erase v ∧ r'.keys = r.keys ∧ r'.pending = r.pending ∧
      r'.removed.size = r.removed.size ∧ ∀ w, w ≠ v → r'.removed[w]? = r.removed[w]? := by
  unfold remove at hr
  obtain ⟨gone, hgone, hr⟩ := bind_eq_ok_iff.mp hr
  rw [Table.get_eq_ok_iff] at hgone
  cases gone with
  | true =>
    cases hr
    have hnot : v ∉ r.order := fun hmem => by
      rw [h.mem_order_iff, hgone] at hmem
      cases hmem
    exact ⟨h, (List.erase_of_not_mem hnot).symm, rfl, rfl, rfl, fun _ _ => rfl⟩
  | false =>
    obtain ⟨removed, hput, hr⟩ := bind_eq_ok_iff.mp hr
    cases hr
    have hsize := Table.size_of_put hput
    refine ⟨⟨h.nodup.erase v, h.descends.sublist List.erase_sublist, ?_,
      h.size_keys.trans hsize.symm, h.size_pending.trans hsize.symm⟩, rfl, rfl, rfl, hsize, ?_⟩
    · intro w
      rw [h.nodup.mem_erase_iff, Table.getElem?_of_put hput, h.mem_order_iff]
      by_cases hw : w = v
      · simp [hw]
      · simp [hw, Ne.symm hw]
    · intro w hw
      rw [Table.getElem?_of_put hput, if_neg (Ne.symm hw)]

theorem remove_of_not_mem (h : r.WellFormed) (hv : v < r.removed.size) (hnot : v ∉ r.order) :
    r.remove v = .ok r := by
  unfold remove
  rw [Table.get_eq_ok_iff.mpr (h.removed_eq_true hv hnot), ok_bind, if_pos rfl, pure_eq_ok]

theorem exists_remove (hv : v < r.removed.size) : ∃ r', r.remove v = .ok r' := by
  unfold remove
  rw [Table.get_of_lt hv true, ok_bind]
  split
  · exact ⟨r, rfl⟩
  · obtain ⟨removed, hput, -⟩ := Table.exists_put hv true
    rw [hput, ok_bind]
    exact ⟨_, rfl⟩

end WellFormed

end RankedList

end LocalityOrder
