import LocalityOrder.Proofs.RankedList.Seniority
import LocalityOrder.Proofs.RunQueue.Refinement

/-!
# The order of a run queue

A run queue lists its elements by descending key, and those with the same key in the order in which
they got it.  The log of the instants at which keys were set is read off the run itself: which head
sinks while the queue settles, and which id is still there when its key is raised.
-/

namespace LocalityOrder

namespace RunQueue

-- The heads that sink until one stays, each of them at an instant of its own.
def recordSettling : (fuel : Nat) → RunQueue → KeyLog → KeyLog
  | 0, _, log => log
  | fuel + 1, q, log =>
    match q.head, q.sinkHead with
    | some v, .ok (true, q) => recordSettling fuel q ([v] :: log)
    | _, _ => log

/-- The log with the instants at which an operation sets keys. -/
def record (q : RunQueue) (log : KeyLog) : Operation → KeyLog
  | .raise v =>
    match q.isRemoved v with
    | .ok false => [v] :: log
    | _ => log
  | .assignKeys _ => q.chain.live :: log
  | .extractMax =>
    match q.head with
    | some first => recordSettling (q.size * q.keys[first]?.getD 0 + 1) q log
    | none => log
  | .addPending _ _ | .setPending _ _ | .remove _ | .key _ | .pending _ | .effectiveKey _
  | .isRemoved _ | .isEmpty | .size | .head => log

/-- The log with the instants at which a history sets keys. -/
def recordAll : RunQueue → KeyLog → List Operation → KeyLog
  | _, log, [] => log
  | q, log, operation :: rest =>
    match q.perform operation with
    | .ok (_, q') => recordAll q' (q.record log operation) rest
    | .error _ => log

variable {q q' : RunQueue} {r r' : RankedList} {log : KeyLog} {operation : Operation}
  {answer : Answer}

namespace Represents

theorem senior_settle {fuel : Nat} (h : q.Represents r) (hne : r.order ≠ [])
    (hsenior : r.Senior log) (hr : RankedList.settle fuel r = .ok r') :
    r'.Senior (recordSettling fuel q log) := by
  induction fuel generalizing q r log with
  | zero => cases hr
  | succ fuel ih =>
    rw [RankedList.settle] at hr
    obtain ⟨⟨sank, r₁⟩, hsink, hrest⟩ := bind_eq_ok_iff.mp hr
    obtain ⟨⟨sank', q₁⟩, hsink', heq, h₁⟩ := (h.sinkHead_alike hne).exists_left hsink
    obtain rfl : sank' = sank := heq
    obtain ⟨v, rest, horder⟩ := List.exists_cons_of_ne_nil hne
    obtain ⟨hwf, hfolded, -, hstays⟩ := h.wellFormed.of_sinkHead hsink
    unfold recordSettling
    rw [h.head, horder, List.head?_cons, hsink']
    cases sank' with
    | false =>
      cases hrest
      exact (hstays rfl).1 ▸ hsenior
    | true =>
      have hne' := h.wellFormed.ne_nil_congr hwf hfolded.removed hne
      exact ih h₁ hne' (hsenior.of_sinkHead h.wellFormed horder hsink) hrest

-- A raise is an instant unless the id is removed, and then it does nothing.
theorem senior_raise {v : Vertex} (h : q.Represents r) (hsenior : r.Senior log)
    (hr : r.raise v = .ok r') : r'.Senior (q.record log (.raise v)) := by
  have hwf := h.wellFormed
  unfold record
  dsimp only
  rw [h.isRemoved_eq]
  by_cases hv : v ∈ r.order
  · rw [Table.get_eq_ok_iff.mpr (hwf.mem_order_iff.mp hv)]
    exact hsenior.of_raise hwf hv hr
  · have hlt : v < r.removed.size := by
      apply Nat.lt_of_not_le
      intro hle
      rw [RankedList.WellFormed.raise_of_size_le hle] at hr
      cases hr
    rw [hwf.raise_of_not_mem hlt hv] at hr
    cases hr
    rw [Table.get_eq_ok_iff.mpr (hwf.removed_eq_true hlt hv)]
    exact hsenior

theorem senior_extractMax {v : Vertex} (h : q.Represents r) (hsenior : r.Senior log)
    (hr : r.extractMax = .ok (v, r')) : r'.Senior (q.record log .extractMax) := by
  have hwf := h.wellFormed
  obtain ⟨first, tail, s, rest, horder, hsettle, -, hremove⟩ := RankedList.eq_of_extractMax hr
  obtain ⟨hs, -⟩ := hwf.of_settle hsettle
  obtain ⟨-, horder', hkeys, -⟩ := hs.of_remove hremove
  have hne : r.order ≠ [] := by simp [horder]
  unfold record
  rw [h.head, horder, List.head?_cons]
  dsimp only
  rw [h.size, h.keys]
  have hsettled := h.senior_settle hne hsenior hsettle
  exact hsettled.of_sublist (horder' ▸ List.erase_sublist) hkeys

/-- An operation keeps the order within runs, with the instants at which it sets keys. -/
theorem senior_perform (h : q.Represents r) (hsenior : r.Senior log)
    (hr : RankedList.Performed r r' operation) : r'.Senior (q.record log operation) := by
  have hwf := h.wellFormed
  cases hr with
  | raise v hr => exact h.senior_raise hsenior hr
  | addPending v change hr =>
    obtain ⟨-, horder, -, hkeys, -⟩ := hwf.of_addPending hr
    exact hsenior.of_sublist (horder ▸ List.Sublist.refl _) hkeys
  | setPending v change hr =>
    obtain ⟨-, horder, -, hkeys, -⟩ := hwf.of_setPending hr
    exact hsenior.of_sublist (horder ▸ List.Sublist.refl _) hkeys
  | remove v hr =>
    obtain ⟨-, horder, hkeys, -⟩ := hwf.of_remove hr
    exact hsenior.of_sublist (horder ▸ List.erase_sublist) hkeys
  | assignKeys keys hr =>
    unfold record
    rw [h.live_eq]
    exact .of_assignKeys hr
  | extractMax v hr => exact h.senior_extractMax hsenior hr
  | question _ hquestion heq =>
    subst heq
    cases operation with
    | key _ | pending _ | effectiveKey _ | isRemoved _ | isEmpty | size | head => exact hsenior
    | _ => exact hquestion.elim

end Represents

/-- The elements, by descending key and then by the time of having their key. -/
structure Ordered (q : RunQueue) (log : KeyLog) (order : List Vertex) : Prop where
  toList : q.toList = .ok order
  nodup : order.Nodup
  mem_iff : ∀ v, v ∈ order ↔ q.isRemoved v = .ok false
  size : q.size = order.length
  head : q.head = order.head?
  pairwise : ∃ keyOf : Vertex → Nat, (∀ v ∈ order, q.key v = .ok (keyOf v)) ∧
    order.Pairwise fun v w => keyOf w < keyOf v ∨ keyOf w = keyOf v ∧ KeyLog.Ahead log v w
  addPending : ∀ {v change q'}, q.addPending v change = .ok q' → q'.toList = .ok order
  setPending : ∀ {v change q'}, q.setPending v change = .ok q' → q'.toList = .ok order
  remove : ∀ {v q'}, q.remove v = .ok q' → q'.toList = .ok (order.erase v)

theorem Represents.ordered (h : q.Represents r) (hsenior : r.Senior log) :
    q.Ordered log r.order := by
  have hwf := h.wellFormed
  refine ⟨h.toList_eq, hwf.nodup, fun v => ?_, h.size, h.head, ⟨r.keyOf, fun v hv => ?_,
    hsenior.pairwise hwf⟩, fun hq => ?_, fun hq => ?_, fun hq => ?_⟩
  · rw [h.isRemoved_eq, Table.get_eq_ok_iff, hwf.mem_order_iff]
  · rw [RunQueue.key, h.keys, hwf.get_keys (hwf.lt_of_mem hv)]
  · obtain ⟨r', hr, h'⟩ := (h.addPending_alike _ _).exists_right hq
    rw [h'.toList_eq, (hwf.of_addPending hr).2.1]
  · obtain ⟨r', hr, h'⟩ := (h.setPending_alike _ _).exists_right hq
    rw [h'.toList_eq, (hwf.of_setPending hr).2.1]
  · obtain ⟨r', hr, h'⟩ := (h.remove_alike _).exists_right hq
    rw [h'.toList_eq, (hwf.of_remove hr).2.1]

theorem Represents.exists_ordered {history : List Operation} (h : q.Represents r)
    (hsenior : r.Senior log) (hq : q.performAll history = .ok q') :
    ∃ order, q'.Ordered (q.recordAll log history) order := by
  induction history generalizing q r log with
  | nil =>
    cases hq
    exact ⟨r.order, h.ordered hsenior⟩
  | cons operation rest ih =>
    unfold performAll at hq
    rw [List.foldlM_cons] at hq
    obtain ⟨q₁, hstep, hrest⟩ := bind_eq_ok_iff.mp hq
    obtain ⟨⟨answer, q₂⟩, hperform, heq⟩ := bind_eq_ok_iff.mp hstep
    cases heq
    obtain ⟨⟨answer', r₂⟩, hr, -, h₂⟩ := (h.perform_alike operation).exists_right hperform
    have hsenior₂ := h.senior_perform hsenior (RankedList.performed_of_perform hr)
    unfold recordAll
    rw [hperform]
    exact ih h₂ hsenior₂ hrest

/-- Through every history, a queue lists each element once, by descending key, and those with the
same key in the order in which they got it. -/
theorem exists_ordered_of_history {n : Nat} {history : List Operation} (hnew : new n = .ok q)
    (hq : q.performAll history = .ok q') : ∃ order, q'.Ordered (q.recordAll [] history) order := by
  obtain ⟨r, hr, h⟩ := (new_alike n).exists_right hnew
  exact h.exists_ordered (.of_new hr) hq

set_option maxRecDepth 100000 in
/-- Three elements with key one: the first was given it, the second was raised to it, and the third
sank to it. -/
theorem exists_ordered_of_history_of_ties :
    ∃ q q', new 4 = .ok q ∧
      q.performAll [.assignKeys ⟨#[3, 0, 2, 1]⟩, .setPending 0 (-4), .raise 1, .extractMax] =
        .ok q' ∧
      q'.Ordered [[0], [1], [0, 1, 2, 3]] [3, 1, 0] := by
  obtain ⟨x, hrun, hx⟩ := exists_eq_ok (f := id) (b := ([[0], [1], [0, 1, 2, 3]], [3, 1, 0]))
    (x := new 4 >>= fun q =>
      q.performAll [.assignKeys ⟨#[3, 0, 2, 1]⟩, .setPending 0 (-4), .raise 1, .extractMax] >>=
        fun q' => q'.toList >>= fun order => .ok (q.recordAll [] [.assignKeys ⟨#[3, 0, 2, 1]⟩,
          .setPending 0 (-4), .raise 1, .extractMax], order)) (by cbv)
  cases hx
  obtain ⟨q, hnew, h₁⟩ := bind_eq_ok_iff.mp hrun
  obtain ⟨q', hq, h₂⟩ := bind_eq_ok_iff.mp h₁
  obtain ⟨order, horder, h₃⟩ := bind_eq_ok_iff.mp h₂
  obtain ⟨hlog, rfl⟩ := Prod.mk.inj (Except.ok.inj h₃)
  obtain ⟨order', hordered⟩ := exists_ordered_of_history hnew hq
  obtain rfl : order' = [3, 1, 0] := Except.ok.inj (hordered.toList.symm.trans horder)
  exact ⟨q, q', hnew, hq, hlog ▸ hordered⟩

end RunQueue

end LocalityOrder
