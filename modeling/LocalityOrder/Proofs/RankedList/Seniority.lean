import LocalityOrder.Proofs.RankedList.Assign
import LocalityOrder.Proofs.RankedList.Extract

/-!
# First come, first served

Among elements with the same key, the one that got the key first comes first.  When an element gets
its key is written down in a log of instants: a raise and a fold are an instant for one element,
and an assignment of keys is a single instant for all of them, in which the smaller id counts as
the earlier one.  Every change of a key puts the element at the end of the run of its new key, so
the order within runs is kept by looking at one insertion (`Senior.of_moved`) and one stable sort.
-/

namespace LocalityOrder

/-! ## Instants -/

/-- The ids that got a key at each instant, the latest instant first. -/
abbrev KeyLog := List (List Vertex)

namespace KeyLog

/-- The instant at which `v` last got a key, zero if it still has the one it began with. -/
def setAt : KeyLog → Vertex → Nat
  | [], _ => 0
  | instant :: earlier, v => if v ∈ instant then earlier.length + 1 else setAt earlier v

/-- The first id has its key for longer, or for as long and is smaller. -/
def Ahead (log : KeyLog) (v w : Vertex) : Prop :=
  setAt log v < setAt log w ∨ setAt log v = setAt log w ∧ v < w

instance (log : KeyLog) (v w : Vertex) : Decidable (Ahead log v w) :=
  inferInstanceAs (Decidable (_ ∨ _))

variable {log : KeyLog} {instant : List Vertex} {v w : Vertex}

theorem setAt_cons_of_mem (hv : v ∈ instant) : setAt (instant :: log) v = log.length + 1 :=
  if_pos hv

theorem setAt_cons_of_not_mem (hv : v ∉ instant) : setAt (instant :: log) v = setAt log v :=
  if_neg hv

theorem setAt_le_length (log : KeyLog) (v : Vertex) : setAt log v ≤ log.length := by
  induction log with
  | nil => exact Nat.le_refl 0
  | cons instant earlier ih =>
    rw [List.length_cons]
    by_cases hv : v ∈ instant
    · rw [setAt_cons_of_mem hv]
    · rw [setAt_cons_of_not_mem hv]
      omega

-- An id without a part in the latest instant is ahead of one that has.
theorem ahead_cons (hv : v ∉ instant) (hw : w ∈ instant) : Ahead (instant :: log) v w := by
  left
  rw [setAt_cons_of_not_mem hv, setAt_cons_of_mem hw]
  exact Nat.lt_succ_of_le (setAt_le_length log v)

theorem Ahead.cons (h : Ahead log v w) (hv : v ∉ instant) (hw : w ∉ instant) :
    Ahead (instant :: log) v w := by
  unfold Ahead
  rw [setAt_cons_of_not_mem hv, setAt_cons_of_not_mem hw]
  exact h

end KeyLog

namespace RankedList

variable {r r' : RankedList} {log : KeyLog} {v : Vertex}

/-- Elements with the same key are listed in the order in which they got it. -/
def Senior (r : RankedList) (log : KeyLog) : Prop :=
  ∀ key, (r.order.filter fun v => r.keyOf v = key).Pairwise (KeyLog.Ahead log)

namespace Senior

/-- By descending key, and with the same key by the time of having it. -/
theorem pairwise (h : r.Senior log) (hwf : r.WellFormed) :
    r.order.Pairwise fun v w =>
      r.keyOf w < r.keyOf v ∨ r.keyOf w = r.keyOf v ∧ KeyLog.Ahead log v w := by
  rw [List.pairwise_iff_forall_sublist]
  intro v w hvw
  have hle : r.keyOf w ≤ r.keyOf v := List.pairwise_iff_forall_sublist.mp hwf.descends hvw
  by_cases hkey : r.keyOf w = r.keyOf v
  · right
    refine ⟨hkey, List.pairwise_iff_forall_sublist.mp (h (r.keyOf v)) ?_⟩
    have hfilter := hvw.filter fun u => decide (r.keyOf u = r.keyOf v)
    rwa [List.filter_cons_of_pos (by simp), List.filter_cons_of_pos (by simpa using hkey),
      List.filter_nil] at hfilter
  · exact .inl (Nat.lt_of_le_of_ne hle hkey)

theorem of_sublist (h : r.Senior log) (horder : r'.order.Sublist r.order)
    (hkeys : r'.keys = r.keys) : r'.Senior log := by
  intro key
  have hkeyOf : r'.keyOf = r.keyOf := funext fun w => by rw [keyOf, hkeys, keyOf]
  rw [hkeyOf]
  exact (h key).sublist (horder.filter _)

/-- An element that gets another key is the last one to have it. -/
theorem of_moved (h : r.Senior log) (hwf : r.WellFormed) (key : Nat)
    (horder : r'.order = insertByKey r.keyOf key v (r.order.erase v))
    (hkey : ∀ w, r'.keyOf w = if w = v then key else r.keyOf w) : r'.Senior ([v] :: log) := by
  have hothers : Descends r.keyOf (r.order.erase v) := hwf.descends.sublist List.erase_sublist
  have hnot : ∀ w ∈ r.order.erase v, w ∉ [v] := fun w hw hv =>
    hwf.nodup.not_mem_erase (List.mem_singleton.mp hv ▸ hw)
  have hsame : ∀ w ∈ r.order.erase v, r'.keyOf w = r.keyOf w := fun w hw => by
    rw [hkey, if_neg fun heq => hnot w hw (List.mem_singleton.mpr heq)]
  have hself : r'.keyOf v = key := by rw [hkey, if_pos rfl]
  -- without the moved element, every run keeps its order
  have hrun : ∀ other, ((r.order.erase v).filter fun w => r.keyOf w = other).Pairwise
      (KeyLog.Ahead ([v] :: log)) := fun other => by
    refine ((h other).sublist (List.erase_sublist.filter _)).imp_of_mem fun ha hb hab => ?_
    exact hab.cons (hnot _ (List.mem_filter.mp ha).1) (hnot _ (List.mem_filter.mp hb).1)
  intro other
  rw [horder, hothers.filter_insertByKey hsame hself other]
  split
  next =>
    refine List.pairwise_append.mpr ⟨hrun key, List.pairwise_singleton _ _, fun a ha b hb => ?_⟩
    exact KeyLog.ahead_cons (hnot a (List.mem_filter.mp ha).1) hb
  next => exact hrun other

theorem of_raise (h : r.Senior log) (hwf : r.WellFormed) (hv : v ∈ r.order)
    (hr : r.raise v = .ok r') : r'.Senior ([v] :: log) := by
  obtain ⟨-, -, -, hkey⟩ := hwf.of_raise hr
  rw [hwf.raise_of_mem hv] at hr
  obtain ⟨raised, -, hr⟩ := bind_eq_ok_iff.mp hr
  obtain ⟨keys, -, heq⟩ := bind_eq_ok_iff.mp hr
  refine h.of_moved hwf (r.keyOf v + 1) ?_ fun w => ?_
  · cases heq
    rfl
  · rw [hkey]
    simp only [hv, and_true]

theorem of_sinkHead {rest : List Vertex} (h : r.Senior log) (hwf : r.WellFormed)
    (horder : r.order = v :: rest) (hr : r.sinkHead = .ok (true, r')) :
    r'.Senior ([v] :: log) := by
  rcases hwf.sinkHead_cases hr with ⟨hstays, -⟩ |
    ⟨u, next, rest', lower, left, keys, pending, -, hu, -, -, -, hkeys, -, rfl⟩
  · cases hstays
  · obtain ⟨rfl, rfl⟩ := List.cons.inj (horder.symm.trans hu)
    refine h.of_moved hwf lower ?_ fun w => ?_
    · rw [horder, List.erase_cons_head]
    · rw [keyOf, Table.getD_of_put hkeys]
      by_cases hw : w = v
      · rw [if_pos hw.symm, if_pos hw]
      · rw [if_neg (Ne.symm hw), if_neg hw]
        rfl

-- An assignment of keys is one instant for all elements, and sorting keeps the order of ids.
theorem of_assignKeys {keys : Table Int} (hr : r.assignKeys keys = .ok r') :
    r'.Senior (r.live :: log) := by
  intro key
  rw [order_of_assignKeys hr, filter_mergeSort]
  have hascending : r.live.Pairwise (· < ·) := List.pairwise_lt_range.filter _
  refine (hascending.filter _).imp_of_mem fun {v w} hv hw hlt => .inr ⟨?_, hlt⟩
  rw [KeyLog.setAt_cons_of_mem (List.mem_filter.mp hv).1,
    KeyLog.setAt_cons_of_mem (List.mem_filter.mp hw).1]

theorem of_new {n : Nat} (hr : new n = .ok r) : r.Senior [] := by
  intro key
  rw [(RankedList.of_new hr).2.1]
  exact (List.pairwise_lt_range.filter _).imp fun hlt => .inr ⟨rfl, hlt⟩

end Senior

end RankedList

end LocalityOrder
