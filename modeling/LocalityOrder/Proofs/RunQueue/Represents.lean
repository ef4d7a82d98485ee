import LocalityOrder.Proofs.RankedList.WellFormed
import LocalityOrder.Proofs.RunQueue.Ends
import LocalityOrder.Proofs.RunQueue.Segment

/-!
# Run queues as ranked lists

A run queue represents a ranked list when its chain is the list, its run table marks the runs of
the list, and the two have the same keys and pending changes.  This file shows that the operations
on single ids keep the two together: they fail alike, and otherwise the results are again a queue
and the list that it represents.
-/

namespace LocalityOrder

namespace RunQueue

theorem nextKey_eq (key : Nat) : nextKey key = RankedList.raisedKey key := by
  have hfits : Score.Fits (key + 1) ↔ key < 2147483647 := by
    unfold Score.Fits
    omega
  exact (if_congr hfits rfl rfl).symm

-- An element is linked in front of its run, whose first element tells where that is.
theorem exists_moveToFront {c : Chain} {keyOf : Vertex → Nat} {l₁ l₂ : List Vertex} {v : Vertex}
    {run : Run}
    (hseg : c.Segment none (l₁ ++ v :: l₂) none) (hnodup : (l₁ ++ v :: l₂).Nodup)
    (hdescends : Descends keyOf (l₁ ++ v :: l₂))
    (hrun : Run.ends ((l₁ ++ v :: l₂).filter fun w => keyOf w = keyOf v) = some run) :
    ∃ c', moveToFront c v run = .ok c' ∧
      c'.Segment none (insertByKey keyOf (keyOf v + 1) v (l₁ ++ l₂)) none ∧
      ∀ w, w ∉ l₁ ++ v :: l₂ → c'.links[w]? = c.links[w]? := by
  have hfirst := Run.first_of_ends hrun
  unfold moveToFront
  by_cases hv : run.first = v
  · rw [if_pos hv, hdescends.insertByKey_of_first hnodup (hv ▸ hfirst)]
    exact ⟨c, rfl, hseg, fun _ _ => rfl⟩
  · obtain ⟨high, low, hsplit, hinsert⟩ := hdescends.insertByKey_of_not_first hfirst hv
    obtain ⟨c₁, c₂, hunlink, hseg₁, hmove, hseg₂, hother⟩ := Chain.exists_move hseg hnodup hsplit
    rw [if_neg hv, hunlink, ok_bind, Chain.link_eq_ok_iff.mpr hseg₁.link_eq, ok_bind, hinsert]
    exact ⟨c₂, hmove, hseg₂, hother⟩

/-- The queue holds the elements of the list in their order. -/
structure Represents (q : RunQueue) (r : RankedList) : Prop where
  wellFormed : r.WellFormed
  keys : q.keys = r.keys
  pending : q.pending = r.pending
  removed : ∀ v : Vertex, r.removed[v]? = q.chain.links[v]?.map Option.isNone
  segment : q.chain.Segment none r.order none
  head : q.head = r.order.head?
  size : q.size = r.order.length
  runs : RunTable.Marks q.runs r.order r.keyOf

namespace Represents

variable {q : RunQueue} {r : RankedList} {v : Vertex}

theorem size_links (h : q.Represents r) : q.chain.links.size = r.removed.size := by
  have hnone : ∀ v : Nat, r.removed[v]? = none ↔ q.chain.links[v]? = none := fun v => by
    rw [h.removed v, Option.map_eq_none_iff]
  have hle := (hnone r.removed.size).mp (Array.getElem?_eq_none (Nat.le_refl _))
  have hge := (hnone q.chain.links.size).mpr (Array.getElem?_eq_none (Nat.le_refl _))
  exact Nat.le_antisymm (Array.getElem?_eq_none_iff.mp hle) (Array.getElem?_eq_none_iff.mp hge)

-- What the chain knows of an id: it is none, it was removed, or it has its neighbors.
theorem link?_cases (h : q.Represents r) (v : Vertex) :
    r.removed.size ≤ v ∧ q.chain.link? v = .error .indexOutOfBounds ∨
      v < r.removed.size ∧ v ∉ r.order ∧ q.chain.link? v = .ok none ∨
      ∃ l₁ l₂, r.order = l₁ ++ v :: l₂ ∧
        q.chain.link? v = .ok (some ⟨l₁.getLast?, l₂.head?⟩) := by
  by_cases hv : v < r.removed.size
  · by_cases hmem : v ∈ r.order
    · obtain ⟨l₁, l₂, horder⟩ := List.append_of_mem hmem
      have hseg := h.segment
      rw [horder] at hseg
      exact .inr (.inr ⟨l₁, l₂, horder, Table.get_eq_ok_iff.mpr hseg.link_eq⟩)
    · refine .inr (.inl ⟨hv, hmem, Table.get_eq_ok_iff.mpr ?_⟩)
      have hremoved := h.wellFormed.removed_eq_true hv hmem
      rw [h.removed v, Option.map_eq_some_iff] at hremoved
      obtain ⟨entry, hentry, hnone⟩ := hremoved
      rw [hentry, Option.isNone_iff_eq_none.mp hnone]
  · rw [Nat.not_lt] at hv
    exact .inl ⟨hv, Table.get_eq_error_iff.mpr ⟨h.size_links.symm ▸ hv, rfl⟩⟩

-- A chain that links the elements of a list knows of their removal what the list knows, if it
-- does so of all other ids.
theorem removed_of_segment {c : Chain} (hwf : r.WellFormed) (hseg : c.Segment none r.order none)
    (hother : ∀ w, w ∉ r.order → r.removed[w]? = c.links[w]?.map Option.isNone) (w : Vertex) :
    r.removed[w]? = c.links[w]?.map Option.isNone := by
  by_cases hw : w ∈ r.order
  · obtain ⟨l₁, l₂, horder⟩ := List.append_of_mem hw
    rw [horder] at hseg
    rw [hwf.mem_order_iff.mp hw, hseg.link_eq]
    rfl
  · exact hother w hw

/-! ## Pending changes -/

-- a pending change concerns neither the order nor the links
theorem of_put_pending {change : Int} {pending : Table Score} (h : q.Represents r)
    (hput : r.pending.put v change = .ok pending) :
    Represents { q with pending } { r with pending } := by
  have hset : r.setPending v change = .ok { r with pending } := by
    unfold RankedList.setPending
    rw [hput]
    rfl
  exact ⟨(h.wellFormed.of_setPending hset).1, h.keys, rfl, h.removed, h.segment, h.head, h.size,
    h.runs⟩

theorem addPending_alike (h : q.Represents r) (v : Vertex) (change : Int) :
    Alike Represents (q.addPending v change) (r.addPending v change) := by
  obtain ⟨chain, head, keys, pending, runs, size⟩ := q
  obtain rfl : pending = r.pending := h.pending
  unfold RunQueue.addPending RankedList.addPending
  exact .bind_same fun old hold => .bind_same fun changed hchanged => .bind_same fun new hput =>
    .ok (h.of_put_pending hput)

theorem setPending_alike (h : q.Represents r) (v : Vertex) (change : Int) :
    Alike Represents (q.setPending v change) (r.setPending v change) := by
  obtain ⟨chain, head, keys, pending, runs, size⟩ := q
  obtain rfl : pending = r.pending := h.pending
  unfold RunQueue.setPending RankedList.setPending
  exact .bind_same fun new hput => .ok (h.of_put_pending hput)

/-! ## Removing -/

theorem remove_alike (h : q.Represents r) (v : Vertex) :
    Alike Represents (q.remove v) (r.remove v) := by
  have hwf := h.wellFormed
  -- the queue reads the link of the id where the list looks up whether it was removed
  rcases h.link?_cases v with ⟨hv, hlink⟩ | ⟨hv, hnot, hlink⟩ | ⟨l₁, l₂, horder, hlink⟩
  · unfold RunQueue.remove RankedList.remove
    rw [hlink, Table.get_eq_error_iff.mpr ⟨hv, rfl⟩]
    exact .error _
  · unfold RunQueue.remove RankedList.remove
    rw [hlink, Table.get_eq_ok_iff.mpr (hwf.removed_eq_true hv hnot)]
    exact .ok h
  · have hmem : v ∈ r.order := by simp [horder]
    obtain ⟨r', hremove⟩ := RankedList.WellFormed.exists_remove (hwf.lt_of_mem hmem)
    obtain ⟨hwf', horder', hkeys', hpending', hsize', hremoved'⟩ := hwf.of_remove hremove
    have hnodup := horder ▸ hwf.nodup
    rw [hwf.erase_eq horder] at horder'
    have hseg := h.segment
    have hmarks := h.runs
    have hdescends := hwf.descends
    rw [horder] at hseg hmarks hdescends
    obtain ⟨chain', hchain, hseg', hgone, hother⟩ := Chain.exists_remove hseg hnodup
    obtain ⟨runs', hleave, -, hmarks'⟩ := hmarks.exists_leave hdescends hnodup
    have hget : q.keys.get v = .ok (r.keyOf v) := h.keys ▸ hwf.get_keys (hwf.lt_of_mem hmem)
    have hkeyOf : r'.keyOf = r.keyOf := funext fun w => by
      unfold RankedList.keyOf
      rw [hkeys']
    rw [hremove]
    unfold RunQueue.remove
    rw [hlink, ok_bind]
    dsimp only
    rw [hget, ok_bind, hchain, ok_bind, hleave, ok_bind]
    refine .ok ⟨hwf', h.keys.trans hkeys'.symm, h.pending.trans hpending'.symm, ?_,
      horder' ▸ hseg', ?_, ?_, ?_⟩
    · apply removed_of_segment hwf' (horder' ▸ hseg')
      intro w hw
      by_cases hwv : w = v
      · have hlt : w < r'.removed.size := by
          rw [hsize', hwv]
          exact hwf.lt_of_mem hmem
        rw [hwf'.removed_eq_true hlt hw, hwv, hgone]
        rfl
      · rw [hremoved' w hwv, h.removed w, hother w hwv (horder' ▸ hw)]
    · -- the head changes only when it is the head that goes
      dsimp only
      rw [h.head, horder', horder]
      cases l₁ with
      | nil => rw [List.nil_append, List.head?_cons, if_pos rfl, List.nil_append]
      | cons a l₁ =>
        have hne : a ≠ v := by
          rintro rfl
          simp at hnodup
        rw [List.cons_append, List.head?_cons, if_neg (by simpa using hne), List.cons_append,
          List.head?_cons]
    · dsimp only
      rw [h.size, horder', horder, List.length_append, List.length_append, List.length_cons]
      omega
    · dsimp only
      rw [horder', hkeyOf]
      exact hmarks'

/-! ## Raising a key -/

-- A queue that moves an element to where its new key belongs represents the list that does so.
theorem of_moved {l₁ l₂ : List Vertex} {key : Nat} {chain : Chain} {head : Option Vertex}
    {runs : RunTable} {r' : RankedList} (h : q.Represents r) (horder : r.order = l₁ ++ v :: l₂)
    (hwf : r'.WellFormed) (hremoved : r'.removed = r.removed)
    (horder' : r'.order = insertByKey r.keyOf key v (l₁ ++ l₂))
    (hseg : chain.Segment none r'.order none)
    (hother : ∀ w, w ∉ r.order → chain.links[w]? = q.chain.links[w]?)
    (hhead : head = r'.order.head?) (hmarks : runs.Marks r'.order r'.keyOf) :
    Represents ⟨chain, head, r'.keys, r'.pending, runs, q.size⟩ r' := by
  have hperm : r'.order.Perm r.order := by
    rw [horder', horder]
    exact insertByKey_perm.trans List.perm_middle.symm
  refine ⟨hwf, rfl, rfl, ?_, hseg, hhead, ?_, hmarks⟩
  · apply removed_of_segment hwf hseg
    intro w hw
    rw [hremoved, h.removed w, hother w fun hmem => hw (hperm.mem_iff.mpr hmem)]
  · exact h.size.trans hperm.length_eq.symm

theorem raise_alike (h : q.Represents r) (v : Vertex) :
    Alike Represents (q.raise v) (r.raise v) := by
  have hwf := h.wellFormed
  rcases h.link?_cases v with ⟨hv, hlink⟩ | ⟨hv, hnot, hlink⟩ | ⟨l₁, l₂, horder, hlink⟩
  · rw [RankedList.WellFormed.raise_of_size_le hv]
    unfold RunQueue.raise
    rw [hlink]
    exact .error _
  · rw [hwf.raise_of_not_mem hv hnot]
    unfold RunQueue.raise
    rw [hlink]
    exact .ok h
  · have hmem : v ∈ r.order := by simp [horder]
    have hnodup := horder ▸ hwf.nodup
    have hdescends := horder ▸ hwf.descends
    have hget : q.keys.get v = .ok (r.keyOf v) := h.keys ▸ hwf.get_keys (hwf.lt_of_mem hmem)
    obtain ⟨run, hrun, hends⟩ := h.runs.exists_run hmem
    obtain ⟨chain, hmove, hseg, hother⟩ :=
      exists_moveToFront (horder ▸ h.segment) hnodup hdescends (horder ▸ hends)
    rw [hwf.raise_of_mem hmem]
    unfold RunQueue.raise
    rw [hlink, ok_bind]
    dsimp only
    rw [hget, ok_bind, hrun, ok_bind, hmove, ok_bind, nextKey_eq]
    refine .bind_same fun raised hraised => ?_
    rw [h.keys]
    refine .bind_same fun keys hkeys => ?_
    obtain rfl : r.keyOf v + 1 = raised := (RankedList.raisedKey_eq_ok_iff.mp hraised).2
    have hv : keys[v]?.getD 0 = r.keyOf v + 1 := by
      rw [Table.getD_of_put hkeys, if_pos rfl]
    have heq : ∀ w, w ≠ v → keys[w]?.getD 0 = r.keyOf w := fun w hw => by
      rw [Table.getD_of_put hkeys, if_neg (Ne.symm hw)]
      rfl
    have hwf' := hwf.insertByKey_erase hmem hkeys (rfl : r.pending.size = _)
    have hothers : Descends r.keyOf (l₁ ++ l₂) := hdescends.sublist (by simp)
    have hnot : v ∉ l₁ ++ l₂ := (List.nodup_cons.mp (List.nodup_middle.mp hnodup)).1
    -- the element leaves its run and is the last one of the run above it
    obtain ⟨runs₁, hleave, -, hmarks₁⟩ :=
      (horder ▸ h.runs : RunTable.Marks q.runs _ _).exists_leave hdescends hnodup
    obtain ⟨runs₂, happend, -, hmarks₂⟩ := (hmarks₁.reserve (r.keyOf v + 1)).exists_append hothers
      (fun w hw => heq w fun hwv => hnot (hwv ▸ hw)) hv (RunTable.lt_size_reserve _ _)
    obtain ⟨first, hfirst⟩ : ∃ first, r.order.head? = some first :=
      Option.isSome_iff_exists.mp (by simp [horder])
    have hfirstKey : keys.get first = .ok (keys[first]?.getD 0) :=
      Table.get_of_lt (hwf'.size_keys.symm ▸ hwf.lt_of_mem (List.mem_of_head? hfirst)) 0
    rw [hleave, ok_bind, happend, ok_bind, h.head, hfirst, Chain.expect, ok_bind, hfirstKey,
      ok_bind]
    rw [hwf.erase_eq horder] at hwf' ⊢
    have hhead := (hdescends.head?_insertByKey (horder ▸ hfirst) hv heq).symm
    rw [h.pending]
    exact .ok (h.of_moved horder hwf' rfl rfl hseg (horder ▸ hother) hhead hmarks₂)

end Represents

end RunQueue

end LocalityOrder
