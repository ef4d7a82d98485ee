import LocalityOrder.Placement
import LocalityOrder.Proofs.Placement.Tracks
import LocalityOrder.Proofs.RunQueue.Assign

/-!
# The first queue

At the start every vertex is in the queue with its in-degree as its key, and the same amount is
pending as a decrease, so that all scores are zero.
-/

namespace LocalityOrder

/-! ## The first queue -/

-- A count of 32 bits that is not read as a negative score is read as itself.
theorem Score.ofCount_eq_of_nonneg {count : Nat} (hcount : count ≤ 4294967295)
    (h : 0 ≤ ofCount count) : ofCount count = count := by
  have hmod : count % 4294967296 = count := Nat.mod_eq_of_lt (by omega)
  simp only [ofCount, hmod] at h ⊢
  split at h
  next hlt => exact if_pos hlt
  next =>
    have hneg : (0 : Int) ≤ (count : Int) - 4294967296 := h
    omega

theorem Digraph.inDegree_le_edgeCount (g : Digraph) (v : Vertex) : g.inDegree v ≤ g.edgeCount := by
  rw [← g.length_sources, ← g.length_edges, sources, List.length_map]
  exact List.length_filter_le _ _

namespace RankedList

/-- The list of all vertices, sorted by in-degree, with all scores zero. -/
def starting (g : Digraph) : Except Fault RankedList := do
  let r ← new g.size
  let scores := ((Vertex.all g.size).map g.inDegree).map Score.ofCount
  let r ← r.assignKeys (.ofList scores)
  scores.zipIdx.foldlM (fun r (score, v) => do r.setPending v (← Score.neg score)) r

variable {g : Digraph} {r r' : RankedList} {v : Vertex}

theorem keyOf_of_size_le (h : r.WellFormed) (hv : r.removed.size ≤ v) : r.keyOf v = 0 := by
  have hnone : r.keys[v]? = none := Array.getElem?_eq_none (by
    rw [← h.size_keys] at hv
    exact hv)
  rw [keyOf, hnone]
  rfl

theorem pendingOf_of_size_le (h : r.WellFormed) (hv : r.removed.size ≤ v) : r.pendingOf v = 0 := by
  have hnone : r.pending[v]? = none := Array.getElem?_eq_none (by
    rw [← h.size_pending] at hv
    exact hv)
  rw [pendingOf, hnone]
  rfl

-- Setting one pending change after the other, the ids from `start` on get the negated scores.
theorem WellFormed.of_negated {scores : List Int} {start : Nat} (h : r.WellFormed)
    (hr : (scores.zipIdx start).foldlM
      (fun r (score, v) => do r.setPending v (← Score.neg score)) r = .ok r') :
    r'.WellFormed ∧ r'.order = r.order ∧ r'.removed = r.removed ∧ r'.keys = r.keys ∧
      (∀ v : Nat, v < start → r'.pendingOf v = r.pendingOf v) ∧
      ∀ (v : Nat) (score : Int), start ≤ v → scores[v - start]? = some score →
        r'.pendingOf v = -score := by
  induction scores generalizing r start with
  | nil =>
    cases hr
    exact ⟨h, rfl, rfl, rfl, fun _ _ => rfl, fun v score _ hscore => by simp at hscore⟩
  | cons first rest ih =>
    rw [List.zipIdx_cons, List.foldlM_cons] at hr
    obtain ⟨r₁, hstep, hrest⟩ := bind_eq_ok_iff.mp hr
    obtain ⟨negated, hneg, hset⟩ := bind_eq_ok_iff.mp hstep
    obtain ⟨-, rfl⟩ := Score.checked_eq_ok_iff.mp hneg
    obtain ⟨hwf₁, horder₁, hremoved₁, hkeys₁, hpending₁⟩ := h.of_setPending hset
    obtain ⟨hwf, horder, hremoved, hkeys, hbefore, hpending⟩ := ih hwf₁ hrest
    refine ⟨hwf, horder.trans horder₁, hremoved.trans hremoved₁, hkeys.trans hkeys₁,
      fun v hv => ?_, fun v score hv hscore => ?_⟩
    · rw [hbefore v (Nat.lt_succ_of_lt hv), hpending₁ v, if_neg (Nat.ne_of_lt hv)]
    · rcases Nat.eq_or_lt_of_le hv with rfl | hlt
      · -- the first id is set here, and no later step comes back to it
        rw [Nat.sub_self, List.getElem?_cons_zero, Option.some_inj] at hscore
        rw [hbefore start (Nat.lt_succ_self _), hpending₁ start, if_pos rfl, hscore]
      · apply hpending v score hlt
        rwa [← Nat.succ_pred_eq_of_pos (Nat.sub_pos_of_lt hlt), List.getElem?_cons_succ,
          Nat.pred_eq_sub_one, Nat.sub_sub] at hscore

theorem WellFormed.exists_negated {scores : List Int} (start : Nat) (h : r.WellFormed)
    (hsize : start + scores.length ≤ r.removed.size)
    (hfits : ∀ score ∈ scores, Score.Fits (-score)) :
    ∃ r', (scores.zipIdx start).foldlM
      (fun r (score, v) => do r.setPending v (← Score.neg score)) r = .ok r' := by
  induction scores generalizing r start with
  | nil => exact ⟨r, rfl⟩
  | cons first rest ih =>
    rw [List.length_cons] at hsize
    have hneg : Score.neg first = .ok (-first) :=
      Score.checked_eq_ok (hfits first List.mem_cons_self)
    have hlt : start < r.removed.size := by omega
    obtain ⟨r₁, hset⟩ := h.exists_setPending hlt (-first)
    obtain ⟨hwf₁, -, hremoved₁, -⟩ := h.of_setPending hset
    have hsize₁ : start + 1 + rest.length ≤ r₁.removed.size := by
      rw [hremoved₁]
      omega
    obtain ⟨r', hr'⟩ := ih (start + 1) hwf₁ hsize₁ fun score hscore =>
      hfits score (List.mem_cons_of_mem first hscore)
    refine ⟨r', ?_⟩
    rw [List.zipIdx_cons, List.foldlM_cons]
    dsimp only
    rw [hneg, ok_bind, hset, ok_bind, hr']

theorem getElem?_scores (g : Digraph) (hv : v < g.size) :
    (((Vertex.all g.size).map g.inDegree).map Score.ofCount)[v]? =
      some (Score.ofCount (g.inDegree v)) := by
  rw [List.map_map, List.getElem?_map, Vertex.all, List.getElem?_range hv]
  rfl

theorem of_starting (hrange : g.InRange) (hcount : g.edgeCount ≤ 4294967295)
    (hr : starting g = .ok r) :
    r.WellFormed ∧ r.removed = .filled g.size false ∧ (∀ v, r.keyOf v = g.inDegree v) ∧
      ∀ v, r.pendingOf v = -g.inDegree v := by
  obtain ⟨r₀, hnew, hr₁⟩ := bind_eq_ok_iff.mp hr
  obtain ⟨r₁, hassign, hr₂⟩ := bind_eq_ok_iff.mp hr₁
  obtain ⟨hwf₀, horder₀, hremoved₀, -⟩ := of_new hnew
  obtain ⟨hwf₁, hremoved₁, -, hkeys₁⟩ := hwf₀.of_assignKeys hassign
  obtain ⟨hwf, -, hremoved, hkeys, -, hpending⟩ := hwf₁.of_negated hr₂
  have hremoved' : r.removed = .filled g.size false := by rw [hremoved, hremoved₁, hremoved₀]
  have hkey : ∀ v, v < g.size →
      r.keyOf v = g.inDegree v ∧ Score.ofCount (g.inDegree v) = g.inDegree v := fun v hv => by
    obtain ⟨k, hk, hnonneg, hkey⟩ := hkeys₁ v (horder₀ ▸ Vertex.mem_all.mpr hv)
    have hscore : (Table.ofList (((Vertex.all g.size).map g.inDegree).map Score.ofCount))[v]? =
        some (Score.ofCount (g.inDegree v)) := by
      rw [← getElem?_scores g hv]
      exact List.getElem?_toArray
    rw [hscore, Option.some_inj] at hk
    have heq := Score.ofCount_eq_of_nonneg ((g.inDegree_le_edgeCount v).trans hcount)
      (hk.symm ▸ hnonneg)
    refine ⟨?_, heq⟩
    unfold keyOf at hkey ⊢
    rw [hkeys, hkey, ← hk, heq, Int.toNat_natCast]
  refine ⟨hwf, hremoved', fun v => ?_, fun v => ?_⟩
  · by_cases hv : v < g.size
    · exact (hkey v hv).1
    · rw [Nat.not_lt] at hv
      rw [Digraph.inDegree_eq_zero hrange hv]
      exact keyOf_of_size_le hwf (by rwa [hremoved', Table.size_filled])
  · by_cases hv : v < g.size
    · rw [hpending v _ (Nat.zero_le v) (getElem?_scores (v := v - 0) g hv), Nat.sub_zero,
        (hkey v hv).2]
    · rw [Nat.not_lt] at hv
      rw [Digraph.inDegree_eq_zero hrange hv]
      exact pendingOf_of_size_le hwf (by rwa [hremoved', Table.size_filled])

theorem exists_starting (hsize : g.size < RunQueue.capacity)
    (hdegree : ∀ v, g.inDegree v < 2147483648) : ∃ r, starting g = .ok r := by
  obtain ⟨r₀, hnew⟩ := exists_new hsize
  obtain ⟨hwf₀, horder₀, hremoved₀, -⟩ := of_new hnew
  -- below the limit on the degree, a score is the degree itself, so no key is negative
  have hkeys : ∀ v ∈ r₀.order, ∃ k,
      (Table.ofList (((Vertex.all g.size).map g.inDegree).map Score.ofCount))[v]? = some k ∧
        0 ≤ k := fun v hv => by
    rw [horder₀, Vertex.mem_all] at hv
    refine ⟨g.inDegree v, ?_, Int.natCast_nonneg _⟩
    rw [← Score.ofCount_of_lt (hdegree v), ← getElem?_scores g hv]
    exact List.getElem?_toArray
  obtain ⟨r₁, hassign⟩ := hwf₀.exists_assignKeys hkeys
  obtain ⟨hwf₁, hremoved₁, -, -⟩ := hwf₀.of_assignKeys hassign
  have hlength : 0 + (((Vertex.all g.size).map g.inDegree).map Score.ofCount).length ≤
      r₁.removed.size := by
    rw [hremoved₁, hremoved₀, Table.size_filled, List.length_map, List.length_map,
      Vertex.length_all, Nat.zero_add]
  have hfits : ∀ score ∈ ((Vertex.all g.size).map g.inDegree).map Score.ofCount,
      Score.Fits (-score) := fun score hscore => by
    rw [List.map_map] at hscore
    obtain ⟨v, -, rfl⟩ := List.mem_map.mp hscore
    have hlimit := hdegree v
    rw [Function.comp_apply, Score.ofCount_of_lt hlimit]
    unfold Score.Fits
    omega
  obtain ⟨r, hr⟩ := hwf₁.exists_negated 0 hlength hfits
  refine ⟨r, ?_⟩
  unfold starting
  rw [hnew, ok_bind]
  dsimp only
  rw [hassign, ok_bind, hr]

-- Before anything enters the window, all scores are zero.
theorem tracks_nil (hkey : ∀ v, r.keyOf v = g.inDegree v)
    (hpending : ∀ v, r.pendingOf v = -g.inDegree v) (window : Nat) : r.Tracks g window [] := by
  refine ⟨fun v _ => ?_, fun v _ => ?_, fun v _ => ?_⟩
  · have hk := hkey v
    have hp := hpending v
    have hdeficit : g.deficit window [] v = 0 := by
      unfold Digraph.deficit
      rw [List.drop_nil]
      rfl
    rw [List.rtake_nil, Digraph.windowAffinity_nil, hdeficit]
    unfold RankedList.score
    omega
  · have hp := hpending v
    omega
  · rw [hkey v]
    exact g.inDegree_le_peak window [] v

theorem bounded_nil (hkey : ∀ v, r.keyOf v = g.inDegree v)
    (hpending : ∀ v, r.pendingOf v = -g.inDegree v) (window : Nat) : r.Bounded g window [] := by
  refine ⟨fun v => ?_, fun v => ?_, fun v => ?_⟩
  · rw [hkey v]
    exact Nat.le_add_right _ _
  · have hp := hpending v
    omega
  · have hp := hpending v
    omega

end RankedList

namespace Placement

open RunQueue (Represents)

variable {g : Digraph} {t : Transpose} {s s' : Placement} {q : RunQueue} {r r' : RankedList}
  {v : Vertex}

theorem startingQueue_alike (ht : t.IsOf g) :
    Alike Represents (startingQueue g t) (RankedList.starting g) := by
  have hdegrees : (Vertex.all g.size).mapM t.degree =
      .ok ((Vertex.all g.size).map g.inDegree) :=
    mapM_eq_ok fun v hv => ht.degree (Vertex.mem_all.mp hv)
  unfold startingQueue RankedList.starting
  apply (RunQueue.new_alike g.size).bind
  intro q₀ r₀ h₀
  rw [hdegrees, ok_bind]
  apply (h₀.assignKeys_alike _).bind
  intro q₁ r₁ h₁
  refine Alike.foldlM (fun x _ q₂ r₂ h₂ => ?_) h₁
  exact .bind_same fun negated _ => h₂.setPending_alike x.2 negated

theorem setAside_alike (h : q.Represents r) (skipped : Table Bool) (v : Vertex) :
    Alike (fun s r' => s.queue.Represents r' ∧ s.skipped = skipped) (setAside ⟨q, skipped⟩ v)
      (r.setAside v) := by
  unfold setAside RankedList.setAside
  apply (h.remove_alike v).bind
  intro q₁ r₁ h₁
  rw [← bind_pure (r₁.setPending v Score.placed)]
  apply (h₁.setPending_alike v Score.placed).bind
  intro q₂ r₂ h₂
  exact .ok ⟨h₂, rfl⟩

end Placement

end LocalityOrder
