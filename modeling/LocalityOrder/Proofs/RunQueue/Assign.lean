import LocalityOrder.Proofs.RankedList.Assign
import LocalityOrder.Proofs.RunQueue.Represents

/-!
# Building a run queue

A queue is built from a list that descends by key: the chain is threaded through the list and the
runs are marked from the front.  The queue of all ids and the queue with new keys are built this
way, from the lists that represent them.
-/

namespace LocalityOrder

namespace RunQueue

variable {r : RankedList}

theorem startingKey_eq (keys : Table Int) : startingKey keys = RankedList.givenKey keys := by
  funext v
  unfold startingKey RankedList.givenKey
  apply bind_congr
  intro key
  cases key with
  | ofNat key => exact if_neg (Int.not_lt.mpr (Int.natCast_nonneg key))
  | negSucc below => exact if_pos (Int.negSucc_lt_zero below)

-- Building a queue from a well-formed list succeeds and represents the list, if there is room for
-- all keys.
theorem exists_ofOrder (hwf : r.WellFormed) {slots : RunTable} (hempty : slots.Marks [] r.keyOf)
    (hroom : ∀ v ∈ r.order, r.keyOf v < slots.size) (chain : Chain)
    (hsize : chain.links.size = r.removed.size)
    (hother : ∀ w, w ∉ r.order → r.removed[w]? = chain.links[w]?.map Option.isNone) :
    ∃ q, ofOrder r.order r.order.length slots chain r.keys r.pending = .ok q ∧
      q.Represents r := by
  have hlt : ∀ v ∈ r.order, v < chain.links.size := fun v hv => hsize.symm ▸ hwf.lt_of_mem hv
  obtain ⟨chain', hthread, hseg, hsame⟩ := Chain.exists_thread none hwf.nodup hlt
  have hkeys : ∀ v ∈ r.order, r.keys.get v = .ok (r.keyOf v) ∧ r.keyOf v < slots.size :=
    fun v hv => ⟨hwf.get_keys (hwf.lt_of_mem hv), hroom v hv⟩
  obtain ⟨runs, hruns, hmarks⟩ := hempty.exists_foldlM hkeys
  rw [List.nil_append] at hmarks
  refine ⟨⟨chain', r.order.head?, r.keys, r.pending, runs, r.order.length⟩, ?_, hwf, rfl, rfl, ?_,
    hseg, rfl, rfl, hmarks⟩
  · rw [ofOrder, hthread, ok_bind, hruns, ok_bind, pure_eq_ok]
  · apply Represents.removed_of_segment hwf hseg
    intro w hw
    rw [hother w hw, hsame w hw]

-- The key of the head is the largest one.
theorem keyOf_le_largest (hwf : r.WellFormed) (hv : v ∈ r.order) :
    r.keyOf v ≤ (r.order.head?.map r.keyOf).getD 0 := by
  obtain ⟨first, rest, horder⟩ := List.exists_cons_of_ne_nil (List.ne_nil_of_mem hv)
  have hdescends := horder ▸ hwf.descends
  rw [horder, List.head?_cons, Option.map_some, Option.getD_some]
  exact hdescends.le_head (horder ▸ hv)

theorem new_alike (n : Nat) : Alike Represents (new n) (RankedList.new n) := by
  by_cases hn : capacity ≤ n
  · rw [new, RankedList.new, if_pos hn, if_pos hn]
    exact .error _
  · obtain ⟨r, hr⟩ := RankedList.exists_new (Nat.lt_of_not_le hn)
    obtain ⟨hwf, horder, hremoved, hkeys, hpending⟩ := RankedList.of_new hr
    have hroom : ∀ v ∈ r.order, r.keyOf v < (RunTable.forIds n).size := fun v hv => by
      rw [horder, Vertex.mem_all] at hv
      rw [RankedList.keyOf, hkeys, Table.getElem?_filled, if_pos hv, Option.getD_some]
      exact RunTable.size_forIds_pos n
    obtain ⟨q, hq, hrep⟩ := exists_ofOrder hwf (.filled _) hroom ⟨.filled n none⟩
      (by rw [hremoved, Table.size_filled, Table.size_filled]) fun w hw => by
        rw [horder, Vertex.mem_all] at hw
        rw [hremoved, Table.getElem?_filled, Table.getElem?_filled, if_neg hw, if_neg hw]
        rfl
    rw [horder, hkeys, hpending, Vertex.length_all] at hq
    rw [hr, new, if_neg hn]
    change Alike Represents (ofOrder _ _ (.filled _ none) _ _ _) _
    rw [hq]
    exact .ok hrep

theorem Represents.live_eq {q : RunQueue} (h : q.Represents r) : q.chain.live = r.live := by
  unfold Chain.live RankedList.live
  rw [h.size_links]
  apply List.filter_congr
  intro v _
  rw [h.removed v]
  cases q.chain.links[v]? with
  | none => rfl
  | some link => cases link <;> rfl

theorem Represents.assignKeys_alike {q : RunQueue} (h : q.Represents r) (keys : Table Int) :
    Alike Represents (q.assignKeys keys) (r.assignKeys keys) := by
  have hwf := h.wellFormed
  unfold RunQueue.assignKeys RankedList.assignKeys
  change Alike Represents (q.chain.live.foldlM _ q.keys >>= _) (r.live.foldlM _ r.keys >>= _)
  rw [h.live_eq, h.keys, startingKey_eq]
  refine .bind_same fun assigned hassigned => ?_
  have hsize := (RankedList.of_assigned r.nodup_live hassigned).1
  have hwf' := hwf.mergeSort_live hsize
  have hlength : r.order.length = (r.live.mergeSort fun v w =>
      assigned[w]?.getD 0 ≤ assigned[v]?.getD 0).length := by
    rw [(List.mergeSort_perm _ _).length_eq]
    exact hwf.perm_live.length_eq
  obtain ⟨q', hq, hrep⟩ := exists_ofOrder hwf' (.filled _)
    (fun v hv => RunTable.lt_size_forKeys (keyOf_le_largest hwf' hv) r.keys.size) q.chain
    h.size_links fun w _ => h.removed w
  rw [h.pending, h.size, hlength]
  exact Eq.mpr (congrArg (Alike Represents · _) hq) (.ok hrep)

end RunQueue

end LocalityOrder
