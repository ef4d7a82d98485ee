import LocalityOrder.Proofs.RankedList.WellFormed

/-!
# Assigning keys

A ranked list whose elements get new keys is sorted anew.  Only what was not removed gets a key,
and the assignment fails when an element has no key or a negative one.
-/

namespace LocalityOrder

namespace RankedList

theorem givenKey_eq_ok_iff {keys : Table Int} {v : Vertex} {key : Nat} :
    givenKey keys v = .ok key ↔ ∃ k, keys[v]? = some k ∧ 0 ≤ k ∧ key = k.toNat := by
  unfold givenKey
  rw [bind_eq_ok_iff]
  constructor
  · rintro ⟨k, hk, h⟩
    cases k with
    | ofNat k =>
      cases h
      exact ⟨key, Table.get_eq_ok_iff.mp hk, Int.natCast_nonneg key, rfl⟩
    | negSucc below => cases h
  · rintro ⟨k, hk, hnonneg, rfl⟩
    refine ⟨k, Table.get_eq_ok_iff.mpr hk, ?_⟩
    obtain ⟨k, rfl⟩ := Int.eq_ofNat_of_zero_le hnonneg
    rfl

-- Assigning keys one after the other writes the starting key of each id in the list.
theorem of_assigned {keys : Table Int} {l : List Vertex} {t t' : Table Nat} (hnodup : l.Nodup)
    (h : l.foldlM (fun (assigned : Table Nat) v => do
      assigned.put v (← givenKey keys v)) t = .ok t') :
    t'.size = t.size ∧ (∀ v, v ∉ l → t'[v]? = t[v]?) ∧
      ∀ v ∈ l, ∃ k, keys[v]? = some k ∧ 0 ≤ k ∧ t'[v]? = some k.toNat := by
  induction l generalizing t with
  | nil =>
    cases h
    exact ⟨rfl, fun _ _ => rfl, by simp⟩
  | cons u rest ih =>
    obtain ⟨hu, hnodup'⟩ := List.nodup_cons.mp hnodup
    rw [List.foldlM_cons] at h
    obtain ⟨t₁, hstep, hrest⟩ := bind_eq_ok_iff.mp h
    obtain ⟨key, hkey, hput⟩ := bind_eq_ok_iff.mp hstep
    obtain ⟨k, hk, hnonneg, rfl⟩ := givenKey_eq_ok_iff.mp hkey
    obtain ⟨hsize, hother, hmem⟩ := ih hnodup' hrest
    refine ⟨hsize.trans (Table.size_of_put hput), fun v hv => ?_, fun v hv => ?_⟩
    · rw [List.mem_cons, not_or] at hv
      rw [hother v hv.2, Table.getElem?_of_put hput, if_neg (Ne.symm hv.1)]
    · rcases List.mem_cons.mp hv with rfl | hv
      · refine ⟨k, hk, hnonneg, ?_⟩
        rw [hother v hu, Table.getElem?_of_put hput, if_pos rfl]
      · exact hmem v hv

theorem exists_assigned {keys : Table Int} {l : List Vertex} {t : Table Nat}
    (h : ∀ v ∈ l, v < t.size ∧ ∃ k, keys[v]? = some k ∧ 0 ≤ k) :
    ∃ t', l.foldlM (fun (assigned : Table Nat) v => do
      assigned.put v (← givenKey keys v)) t = .ok t' := by
  induction l generalizing t with
  | nil => exact ⟨t, rfl⟩
  | cons u rest ih =>
    obtain ⟨hu, k, hk, hnonneg⟩ := h u List.mem_cons_self
    obtain ⟨t₁, hput, hsize, -⟩ := Table.exists_put hu k.toNat
    rw [List.foldlM_cons, givenKey_eq_ok_iff.mpr ⟨k, hk, hnonneg, rfl⟩, ok_bind, hput, ok_bind]
    exact ih fun v hv => hsize.symm ▸ h v (List.mem_cons_of_mem u hv)

/-- The ids that were not removed, ascending. -/
def live (r : RankedList) : List Vertex :=
  (Vertex.all r.removed.size).filter fun v => r.removed[v]? == some false

variable {r r' : RankedList} {v : Vertex} {keys : Table Int}

theorem nodup_live (r : RankedList) : r.live.Nodup := List.nodup_range.filter _

-- The comparison of keys is transitive and total, as sorting asks for.
theorem trans_keyOf (keyOf : Vertex → Nat) (a b c : Vertex)
    (hab : decide (keyOf b ≤ keyOf a) = true) (hbc : decide (keyOf c ≤ keyOf b) = true) :
    decide (keyOf c ≤ keyOf a) = true := by
  simp only [decide_eq_true_eq] at *
  omega

theorem total_keyOf (keyOf : Vertex → Nat) (a b : Vertex) :
    (decide (keyOf b ≤ keyOf a) || decide (keyOf a ≤ keyOf b)) = true := by
  simp only [Bool.or_eq_true, decide_eq_true_eq]
  omega

theorem descends_mergeSort (keyOf : Vertex → Nat) (l : List Vertex) :
    Descends keyOf (l.mergeSort fun v w => keyOf w ≤ keyOf v) := by
  have hsorted := List.pairwise_mergeSort (trans_keyOf keyOf) (total_keyOf keyOf) l
  simpa only [Descends, decide_eq_true_eq] using hsorted

-- Sorting leaves ids with the same key in their order.
theorem filter_mergeSort (keyOf : Vertex → Nat) (l : List Vertex) (key : Nat) :
    (l.mergeSort fun v w => keyOf w ≤ keyOf v).filter (fun v => keyOf v = key) =
      l.filter fun v => keyOf v = key := by
  let run := l.filter fun v => keyOf v = key
  have hrun : run.Pairwise fun v w => decide (keyOf w ≤ keyOf v) = true := by
    refine List.pairwise_of_forall_mem_list fun v hv w hw => ?_
    have hkey : keyOf v = key := by simpa using (List.mem_filter.mp hv).2
    have hkey' : keyOf w = key := by simpa using (List.mem_filter.mp hw).2
    rw [hkey, hkey', decide_eq_true_eq]
  have hsub : run.Sublist (l.mergeSort fun v w => keyOf w ≤ keyOf v) :=
    List.sublist_mergeSort (trans_keyOf keyOf) (total_keyOf keyOf) hrun List.filter_sublist
  have hfilter := hsub.filter fun v => decide (keyOf v = key)
  have hsame : run.filter (fun v => decide (keyOf v = key)) = run := by
    rw [List.filter_filter]
    simp only [Bool.and_self]
    rfl
  rw [hsame] at hfilter
  exact (hfilter.eq_of_length ((List.mergeSort_perm _ _).filter _).length_eq.symm).symm

-- An assignment of keys sorts the elements by them.
theorem order_of_assignKeys (hr : r.assignKeys keys = .ok r') :
    r'.order = r.live.mergeSort fun v w => r'.keyOf w ≤ r'.keyOf v := by
  unfold assignKeys at hr
  obtain ⟨assigned, -, heq⟩ := bind_eq_ok_iff.mp hr
  cases heq
  rfl

namespace WellFormed

theorem mem_live (h : r.WellFormed) : v ∈ r.live ↔ v ∈ r.order := by
  rw [live, List.mem_filter, Vertex.mem_all, beq_iff_eq, ← h.mem_order_iff]
  exact ⟨And.right, fun hv => ⟨h.lt_of_mem hv, hv⟩⟩

theorem perm_live (h : r.WellFormed) : r.order.Perm r.live :=
  (List.perm_ext_iff_of_nodup h.nodup r.nodup_live).mpr fun _ => h.mem_live.symm

-- Sorting the elements by other keys gives a well-formed list again.
theorem mergeSort_live (h : r.WellFormed) {assigned : Table Nat}
    (hsize : assigned.size = r.keys.size) :
    WellFormed { r with
      order := r.live.mergeSort fun v w => assigned[w]?.getD 0 ≤ assigned[v]?.getD 0
      keys := assigned } where
  nodup := (List.mergeSort_perm _ _).nodup_iff.mpr r.nodup_live
  descends := descends_mergeSort (fun v => assigned[v]?.getD 0) r.live
  mem_order_iff := by
    intro v
    rw [(List.mergeSort_perm _ _).mem_iff, h.mem_live, h.mem_order_iff]
  size_keys := hsize.trans h.size_keys
  size_pending := h.size_pending

theorem of_assignKeys (h : r.WellFormed) (hr : r.assignKeys keys = .ok r') :
    r'.WellFormed ∧ r'.removed = r.removed ∧ r'.pending = r.pending ∧
      ∀ v ∈ r.order, ∃ k, keys[v]? = some k ∧ 0 ≤ k ∧ r'.keyOf v = k.toNat := by
  unfold assignKeys at hr
  obtain ⟨assigned, hassigned, heq⟩ := bind_eq_ok_iff.mp hr
  cases heq
  obtain ⟨hsize, -, hkeys⟩ := of_assigned r.nodup_live hassigned
  refine ⟨h.mergeSort_live hsize, rfl, rfl, fun v hv => ?_⟩
  obtain ⟨k, hk, hnonneg, hkey⟩ := hkeys v (h.mem_live.mpr hv)
  refine ⟨k, hk, hnonneg, ?_⟩
  rw [keyOf, hkey, Option.getD_some]

theorem exists_assignKeys (h : r.WellFormed)
    (hkeys : ∀ v ∈ r.order, ∃ k, keys[v]? = some k ∧ 0 ≤ k) :
    ∃ r', r.assignKeys keys = .ok r' := by
  obtain ⟨assigned, hassigned⟩ := exists_assigned (t := r.keys) (l := r.live)
    fun v hv => by
      rw [h.mem_live] at hv
      exact ⟨h.size_keys.symm ▸ h.lt_of_mem hv, hkeys v hv⟩
  unfold assignKeys
  change ∃ r', (r.live.foldlM _ r.keys >>= _) = Except.ok r'
  rw [hassigned, ok_bind]
  exact ⟨_, rfl⟩

end WellFormed

-- The list of all ids has each of them once, with key zero and nothing pending.
theorem of_new {n : Nat} (hr : new n = .ok r) :
    r.WellFormed ∧ r.order = Vertex.all n ∧ r.removed = .filled n false ∧ r.keys = .filled n 0 ∧
      r.pending = .filled n 0 := by
  unfold new at hr
  split at hr
  next => cases hr
  next =>
    cases hr
    refine ⟨⟨List.nodup_range, ?_, ?_, ?_, ?_⟩, rfl, rfl, rfl, rfl⟩
    · refine List.Pairwise.imp_of_mem (fun {a b} ha hb _ => ?_) List.nodup_range
      have hzero : ∀ v, v ∈ List.range n → ((Table.filled n 0)[v]?.getD 0 : Nat) = 0 :=
        fun v hv => by rw [Table.getElem?_filled, if_pos (List.mem_range.mp hv), Option.getD_some]
      exact Nat.le_of_eq ((hzero b hb).trans (hzero a ha).symm)
    · intro v
      rw [Table.getElem?_filled, Vertex.mem_all]
      simp
    · rw [Table.size_filled, Table.size_filled]
    · rw [Table.size_filled, Table.size_filled]

theorem exists_new {n : Nat} (hn : n < RunQueue.capacity) : ∃ r, new n = .ok r := by
  rw [new, if_neg (Nat.not_le.mpr hn)]
  exact ⟨_, rfl⟩

end RankedList

end LocalityOrder
