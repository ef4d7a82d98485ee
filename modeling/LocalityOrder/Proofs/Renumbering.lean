import LocalityOrder.Renumbering
import LocalityOrder.Vertex
import Mathlib.Data.List.Nodup

/-!
# Orders that make renumberings

An order that names every id once makes a renumbering, and the renumbering has it as its order.
-/

namespace LocalityOrder

namespace Renumbering

variable {n : Nat} {order ids : List Vertex} {p : Renumbering}

theorem exists_assign {places : Array (Option Vertex)} (position : Nat) (hnodup : ids.Nodup)
    (hfree : ∀ id ∈ ids, places[id]? = some none) :
    ∃ after, assign places position ids = .ok after := by
  induction ids generalizing places position with
  | nil => exact ⟨places, rfl⟩
  | cons head rest ih =>
    obtain ⟨hhead, hrest⟩ := List.nodup_cons.mp hnodup
    obtain ⟨hlt, hnone⟩ := Array.getElem?_eq_some_iff.mp (hfree head List.mem_cons_self)
    rw [assign, dif_pos hlt, hnone, if_neg (by decide)]
    apply ih (position + 1) hrest
    intro id hid
    have hne : head ≠ id := fun heq => hhead (heq ▸ hid)
    rw [Array.getElem?_set, if_neg hne]
    exact hfree id (List.mem_cons_of_mem head hid)

theorem exists_ofOrder (h : order.Perm (Vertex.all n)) : ∃ p, ofOrder order = .ok p := by
  have hnodup : order.Nodup := h.nodup_iff.mpr List.nodup_range
  have hlength : order.length = n := by rw [h.length_eq, Vertex.length_all]
  have hfree : ∀ id ∈ order, (Array.replicate order.length (none : Option Vertex))[id]? =
      some none := fun id hid => by
    have hlt : id < n := Vertex.mem_all.mp (h.mem_iff.mp hid)
    rw [Array.getElem?_replicate, hlength, if_pos hlt]
  obtain ⟨places, hplaces⟩ := exists_assign 0 hnodup hfree
  unfold ofOrder
  split
  next hdefect =>
    rw [hplaces] at hdefect
    cases hdefect
  next => exact ⟨_, rfl⟩

theorem toList_of_ofOrder (h : ofOrder order = .ok p) : p.newToOld.toList = order := by
  unfold ofOrder at h
  split at h
  next => cases h
  next =>
    cases h
    rfl

end Renumbering

end LocalityOrder
