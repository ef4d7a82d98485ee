import LocalityOrder.Proofs.Placement.Run
import Mathlib

/-!
# Effective keys

When the window has slid over the vertex placed last, the effective key of each vertex in the queue
is its affinity to the window, less what the slides so far have missed on repeated edges.
-/

namespace LocalityOrder

namespace Placement

variable {g : Digraph} {t : Transpose} {s s' : Placement} {q : RunQueue} {r : RankedList}
  {window count : Nat} {v : Vertex}

theorem mem_order_of_isRemoved (h : q.Represents r) (hv : q.isRemoved v = .ok false) :
    v ∈ r.order := by
  obtain ⟨link, hlink, hsome⟩ := bind_eq_ok_iff.mp hv
  rcases h.link?_cases v with ⟨-, herror⟩ | ⟨-, -, hnone⟩ | ⟨l₁, l₂, horder, -⟩
  · rw [herror] at hlink
    cases hlink
  · rw [hnone] at hlink
    cases hlink
    cases hsome
  · rw [horder]
    exact List.mem_append_right _ List.mem_cons_self

/-- After every slide, no skipped sibling is left over, and each vertex in the queue has a key and a
pending decrease that together are its affinity to the window less the deficits. -/
theorem effectiveKey_after_slide (ht : Transpose.ofDigraph g = .ok t) (hw : 1 ≤ window)
    (hs : (start g t >>= fun s => s.advance g t window count) = .ok s)
    (hslide : s.slide g t window = .ok s') :
    s'.scores.skipped = .filled g.size false ∧
      ∀ v, s'.scores.queue.isRemoved v = .ok false → ∃ (key : Nat) (pending : Int),
        s'.scores.queue.key v = .ok key ∧ s'.scores.queue.pendingOf v = .ok pending ∧
        pending ≤ 0 ∧
        key + pending = (g.windowAffinity (s.order.toList.rtake window) v : Int) -
          g.deficit window s.order.toList v ∧
        key + pending ≤ (g.windowAffinity (s.order.toList.rtake window) v : Int) ∧
        ((∀ u, u < g.size → (g.targets u).Nodup) →
          key + pending = (g.windowAffinity (s.order.toList.rtake window) v : Int)) := by
  have hof := Transpose.isOf_of_ofDigraph ht
  obtain ⟨s₀, hstart, hadvance⟩ := bind_eq_ok_iff.mp hs
  cases ((reached_of_start hof hstart window).of_advance hof hw hadvance).1 with
  | nothing h horder hempty =>
    unfold Placement.slide at hslide
    rw [horder] at hslide
    cases hslide
    refine ⟨h.skipped, fun v hv => ?_⟩
    have hmem := mem_order_of_isRemoved h.represents hv
    rw [hempty] at hmem
    cases hmem
  | placed h horder =>
    -- after the slide, all that is placed has entered the window
    obtain ⟨r, -, h', -⟩ := (h.slide_alike hof hw horder).exists_right hslide
    rw [← horder] at h'
    have hwf := h'.represents.wellFormed
    refine ⟨h'.skipped, fun v hv => ?_⟩
    have hmem := mem_order_of_isRemoved h'.represents hv
    have hlive := (RankedList.isLive_iff hwf).mpr hmem
    have hlt := hwf.lt_of_mem hmem
    have hscore := h'.tracks.score v hlive
    have hnonpos := h'.tracks.pending_nonpos v hlive
    unfold RankedList.score at hscore
    refine ⟨r.keyOf v, r.pendingOf v, ?_, ?_, hnonpos, hscore, ?_, fun hnodup => ?_⟩
    · rw [RunQueue.key, h'.represents.keys, hwf.get_keys hlt]
    · rw [RunQueue.pendingOf, h'.represents.pending, hwf.get_pending hlt]
    · omega
    · rw [Digraph.deficit_of_nodup hnodup] at hscore
      omega

set_option maxRecDepth 100000 in
/-- With a repeated edge, a score falls behind: vertex 3 is next to the window in two ways and
scores one. -/
theorem effectiveKey_after_slide_of_repetition :
    ∃ (t : Transpose) (s s' : Placement),
      Transpose.ofDigraph (.ofLists [[1, 2, 2, 3], [1], [], []]) = .ok t ∧
      s.slide (.ofLists [[1, 2, 2, 3], [1], [], []]) t 1 = .ok s' ∧ s.order = #[1, 2] ∧
      s'.scores.queue.isRemoved 3 = .ok false ∧
      ∃ (key : Nat) (pending : Int), s'.scores.queue.key 3 = .ok key ∧
        s'.scores.queue.pendingOf 3 = .ok pending ∧ key + pending = 2 - 1 := by
  obtain ⟨x, hrun, hx⟩ := exists_eq_ok (f := id) (b := (#[1, 2], false))
    (x := (Transpose.ofDigraph (.ofLists [[1, 2, 2, 3], [1], [], []])).mapError
        (fun _ => Fault.indexOutOfBounds) >>= fun t =>
      (start (.ofLists [[1, 2, 2, 3], [1], [], []]) t >>= fun s =>
        s.advance (.ofLists [[1, 2, 2, 3], [1], [], []]) t 1 1) >>= fun s =>
      s.slide (.ofLists [[1, 2, 2, 3], [1], [], []]) t 1 >>= fun s' =>
      s'.scores.queue.isRemoved 3 >>= fun removed => .ok (s.order, removed)) (by cbv)
  cases hx
  obtain ⟨t, ht, h₁⟩ := bind_eq_ok_iff.mp hrun
  obtain ⟨s, hs, h₂⟩ := bind_eq_ok_iff.mp h₁
  obtain ⟨s', hslide, h₃⟩ := bind_eq_ok_iff.mp h₂
  obtain ⟨removed, hremoved, h₄⟩ := bind_eq_ok_iff.mp h₃
  obtain ⟨horder, rfl⟩ := Prod.mk.inj (Except.ok.inj h₄)
  rw [mapError_eq_ok_iff] at ht
  obtain ⟨key, pending, hkey, hpending, -, hscore, -⟩ :=
    (effectiveKey_after_slide ht (by decide) hs hslide).2 3 hremoved
  refine ⟨t, s, s', ht, hslide, horder, hremoved, key, pending, hkey, hpending, ?_⟩
  rw [hscore, horder]
  decide

end Placement

end LocalityOrder
