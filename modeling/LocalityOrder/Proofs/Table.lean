import LocalityOrder.Proofs.Checked

/-!
# Tables of arrays

Items that are pushed, one after the other, each at a place of its own choice, are found there in
the order in which they came.
-/

namespace LocalityOrder

namespace Table

variable {ι β : Type} {items : List ι} {place : ι → Nat} {value : ι → β}
variable {rows rows' : Table (Array β)}

theorem size_of_modify {α : Type} {s t : Table α} {i : Nat} {f : α → α}
    (h : s.modify i f = .ok t) : t.size = s.size := by
  unfold modify at h
  split at h
  · cases h
    exact Array.size_modify
  · cases h

theorem lt_of_modify {α : Type} {s t : Table α} {i : Nat} {f : α → α}
    (h : s.modify i f = .ok t) : i < s.size := by
  unfold modify at h
  split at h
  next hi => exact hi
  next => cases h

theorem of_foldlM_push
    (h : items.foldlM (fun rows item => rows.modify (place item) (·.push (value item))) rows =
      .ok rows') :
    rows'.size = rows.size ∧ ∀ i, rows'[i]? = rows[i]?.map
      (· ++ ((items.filter fun item => place item = i).map value).toArray) := by
  induction items generalizing rows with
  | nil =>
    cases h
    simp
  | cons item rest ih =>
    rw [List.foldlM_cons] at h
    obtain ⟨rows₁, hstep, hrest⟩ := bind_eq_ok_iff.mp h
    obtain ⟨hsize, hrows⟩ := ih hrest
    refine ⟨hsize.trans (size_of_modify hstep), fun i => ?_⟩
    rw [hrows, getElem?_of_modify hstep]
    by_cases hi : place item = i
    · rw [if_pos hi, List.filter_cons_of_pos (by simpa using hi), Option.map_map]
      congr 1
      funext row
      simp
    · rw [if_neg hi, List.filter_cons_of_neg (by simpa using hi)]

theorem exists_foldlM_push (h : ∀ item ∈ items, place item < rows.size) :
    ∃ rows', items.foldlM (fun rows item => rows.modify (place item) (·.push (value item))) rows =
      .ok rows' := by
  induction items generalizing rows with
  | nil => exact ⟨rows, rfl⟩
  | cons item rest ih =>
    rw [List.foldlM_cons, Table.modify_of_lt (h item List.mem_cons_self), ok_bind]
    apply ih
    intro other hother
    rw [size_of_modify (modify_of_lt (h item List.mem_cons_self) _)]
    exact h other (List.mem_cons_of_mem item hother)

theorem lt_of_foldlM_push
    (h : items.foldlM (fun rows item => rows.modify (place item) (·.push (value item))) rows =
      .ok rows') : ∀ item ∈ items, place item < rows.size := by
  induction items generalizing rows with
  | nil => exact fun item hitem => absurd hitem List.not_mem_nil
  | cons item rest ih =>
    rw [List.foldlM_cons] at h
    obtain ⟨rows₁, hstep, hrest⟩ := bind_eq_ok_iff.mp h
    intro other hother
    rcases List.mem_cons.mp hother with rfl | hother
    · exact lt_of_modify hstep
    · rw [← size_of_modify hstep]
      exact ih hrest other hother

end Table

end LocalityOrder
