import LocalityOrder.RunQueue.Operation
import LocalityOrder.Proofs.RankedList.History
import LocalityOrder.Proofs.RunQueue.Assign
import LocalityOrder.Proofs.RunQueue.Extract
import Mathlib

/-!
# Run queues refine ranked lists

A run queue and the ranked list that it represents cannot be told apart: every operation has the
same answer on both, and leaves a queue and a list that belong together again.  From the start on,
this carries over to whole histories.
-/

namespace LocalityOrder

namespace RunQueue

variable {q : RunQueue} {r : RankedList}

/-- Whatever can be seen of the queue is as the list says, and every operation gives the same
answer or the same fault on both. -/
structure AnswersAs (q : RunQueue) (r : RankedList) : Prop where
  toList : q.toList = .ok r.order
  key : ∀ v, q.key v = r.keys.get v
  pendingOf : ∀ v, q.pendingOf v = r.pending.get v
  isRemoved : ∀ v, q.isRemoved v = r.removed.get v
  size : q.size = r.order.length
  head : q.head = r.order.head?
  perform : ∀ operation, Alike (fun x y => x.1 = y.1) (q.perform operation) (r.perform operation)

namespace Represents

theorem toList_eq (h : q.Represents r) : q.toList = .ok r.order := by
  unfold RunQueue.toList
  rw [h.size, h.head]
  exact h.segment.walk_eq

theorem isRemoved_eq (h : q.Represents r) (v : Vertex) : q.isRemoved v = r.removed.get v := by
  unfold RunQueue.isRemoved Chain.link?
  have hremoved := h.removed v
  cases hlink : q.chain.links[v]? with
  | none =>
    rw [hlink, Option.map_none] at hremoved
    rw [Table.get_eq_error_iff.mpr ⟨Array.getElem?_eq_none_iff.mp hlink, rfl⟩,
      Table.get_eq_error_iff.mpr ⟨Array.getElem?_eq_none_iff.mp hremoved, rfl⟩]
    rfl
  | some entry =>
    rw [hlink, Option.map_some] at hremoved
    rw [Table.get_eq_ok_iff.mpr hlink, Table.get_eq_ok_iff.mpr hremoved]
    rfl

theorem effectiveKey_eq (h : q.Represents r) (v : Vertex) :
    q.effectiveKey v =
      r.keys.get v >>= fun key => r.pending.get v >>= fun change => Score.add key change := by
  unfold RunQueue.effectiveKey RunQueue.key RunQueue.pendingOf
  rw [h.keys, h.pending]

theorem isEmpty_eq (h : q.Represents r) : q.isEmpty = r.order.isEmpty := by
  unfold RunQueue.isEmpty
  rw [h.size]
  cases r.order <;> rfl

/-- An operation has the same answer on a queue and on its list, and the two stay together. -/
theorem perform_alike (h : q.Represents r) (operation : Operation) :
    Alike (fun x y => x.1 = y.1 ∧ x.2.Represents y.2) (q.perform operation)
      (r.perform operation) := by
  have hchanges : ∀ {x : Except Fault RunQueue} {y : Except Fault RankedList},
      Alike Represents x y → Alike (fun x y => x.1 = y.1 ∧ x.2.Represents y.2)
        (do return (Answer.done, ← x)) (do return (Answer.done, ← y)) :=
    fun hxy => hxy.bind fun _ _ h' => .ok ⟨rfl, h'⟩
  have hasks : ∀ {α : Type} (answer : α → Answer) {x y : Except Fault α}, x = y →
      Alike (fun x y => x.1 = y.1 ∧ x.2.Represents y.2)
        (do return (answer (← x), q)) (do return (answer (← y), r)) := by
    rintro α answer x y rfl
    exact .bind_same fun _ _ => .ok ⟨rfl, h⟩
  cases operation with
  | raise v => exact hchanges (h.raise_alike v)
  | addPending v change => exact hchanges (h.addPending_alike v change)
  | setPending v change => exact hchanges (h.setPending_alike v change)
  | remove v => exact hchanges (h.remove_alike v)
  | assignKeys keys => exact hchanges (h.assignKeys_alike keys)
  | extractMax =>
    refine h.extractMax_alike.bind fun x y hxy => ?_
    exact .ok ⟨congrArg (fun v => Answer.vertex (some v)) hxy.1, hxy.2⟩
  | key v => exact hasks (fun key : Nat => .number key) (by unfold RunQueue.key; rw [h.keys])
  | pending v => exact hasks .number (by unfold RunQueue.pendingOf; rw [h.pending])
  | effectiveKey v =>
    have hsame := hasks .number (h.effectiveKey_eq v)
    simp only [bind_assoc] at hsame
    exact hsame
  | isRemoved v => exact hasks .flag (h.isRemoved_eq v)
  | isEmpty => exact .ok ⟨congrArg Answer.flag h.isEmpty_eq, h⟩
  | size => exact .ok ⟨congrArg (fun n : Nat => Answer.number n) h.size, h⟩
  | head => exact .ok ⟨congrArg Answer.vertex h.head, h⟩

theorem answersAs (h : q.Represents r) : q.AnswersAs r where
  toList := h.toList_eq
  key v := by rw [RunQueue.key, h.keys]
  pendingOf v := by rw [RunQueue.pendingOf, h.pending]
  isRemoved := h.isRemoved_eq
  size := h.size
  head := h.head
  perform operation := (h.perform_alike operation).mono fun _ _ hxy => hxy.1

theorem performAll_alike (h : q.Represents r) (history : List Operation) :
    Alike Represents (q.performAll history) (r.performAll history) := by
  unfold RunQueue.performAll RankedList.performAll
  refine Alike.foldlM (fun operation _ q r h => ?_) h
  exact (h.perform_alike operation).bind fun _ _ hxy => .ok hxy.2

end Represents

/-- A queue of fewer ids than its capacity can be built.  Through every history of scores it either
fails as the ranked list does, and never because it would not settle, or it is sound and answers as
the list does. -/
theorem answersAs_of_history {n : Nat} (hn : n < capacity) (history : List Operation)
    (hhistory : ∀ operation ∈ history, operation.Fits) :
    ∃ q r, new n = .ok q ∧ RankedList.new n = .ok r ∧
      Alike (fun q r => q.Represents r ∧ q.AnswersAs r) (q.performAll history)
        (r.performAll history) ∧
      Settles (r.performAll history) := by
  obtain ⟨r, hr⟩ := RankedList.exists_new hn
  obtain ⟨q, hq, h⟩ := (new_alike n).exists_left hr
  refine ⟨q, r, hq, hr, ?_, ?_⟩
  · exact (h.performAll_alike history).mono fun _ _ h' => ⟨h', h'.answersAs⟩
  · exact h.wellFormed.settles_performAll (RankedList.foldable_of_new hr) hhistory

set_option maxRecDepth 100000 in
/-- The head sinks before the best element is taken, a key is raised and an element removed. -/
theorem answersAs_of_history_of_sinking :
    ∃ q r q' r', new 4 = .ok q ∧ RankedList.new 4 = .ok r ∧
      q.performAll [.assignKeys ⟨#[3, 2, 2, 0]⟩, .setPending 0 (-4), .raise 2, .extractMax,
        .raise 0, .remove 1] = .ok q' ∧
      r.performAll [.assignKeys ⟨#[3, 2, 2, 0]⟩, .setPending 0 (-4), .raise 2, .extractMax,
        .raise 0, .remove 1] = .ok r' ∧
      q'.AnswersAs r' ∧ q'.toList = .ok [0, 3] := by
  obtain ⟨q, r, hq, hr, halike, -⟩ := answersAs_of_history (n := 4) (by decide)
    [.assignKeys ⟨#[3, 2, 2, 0]⟩, .setPending 0 (-4), .raise 2, .extractMax, .raise 0, .remove 1]
    (by decide)
  obtain ⟨r', hrun, horder⟩ := exists_eq_ok (f := fun r : RankedList => r.order) (b := [0, 3])
    (x := RankedList.new 4 >>= fun r => r.performAll [.assignKeys ⟨#[3, 2, 2, 0]⟩,
      .setPending 0 (-4), .raise 2, .extractMax, .raise 0, .remove 1]) (by cbv)
  rw [hr, ok_bind] at hrun
  obtain ⟨q', hrun', -, hanswers⟩ := halike.exists_left hrun
  exact ⟨q, r, q', r', hq, hr, hrun', hrun, hanswers, horder ▸ hanswers.toList⟩

end RunQueue

end LocalityOrder
