import LocalityOrder.Proofs.RunQueue.Refinement

/-!
# The best element of a run queue

Whatever changes are pending, a queue with an element gives one out.  No score changes by that: a
key that falls leaves its loss pending.  The key of the element that is given out is above the keys
of all others, up to half of the decrease that it still has pending, and without pending changes it
is the best element outright.
-/

namespace LocalityOrder

namespace RankedList

variable {r r' : RankedList} {u v : Vertex}

-- Only elements sink, so an id that is none keeps its key.
theorem WellFormed.keyOf_of_settle {fuel : Nat} (h : r.WellFormed) (hr : settle fuel r = .ok r')
    (hu : u ∉ r.order) : r'.keyOf u = r.keyOf u := by
  induction fuel generalizing r with
  | zero => cases hr
  | succ fuel ih =>
    rw [settle] at hr
    obtain ⟨⟨sank, r₁⟩, hsink, hrest⟩ := bind_eq_ok_iff.mp hr
    have hwf := (h.of_sinkHead hsink).1
    rcases h.sinkHead_cases hsink with ⟨rfl, rfl, -⟩ |
      ⟨w, next, rest, lower, left, keys, pending, rfl, horder, -, -, -, hkeys, -, rfl⟩
    · cases hrest
      rfl
    · have hw : w ≠ u := by
        rintro rfl
        simp [horder] at hu
      have hmem : ∀ x, x ∈ insertByKey r.keyOf lower w (next :: rest) ↔ x ∈ r.order := by
        simp [mem_insertByKey, horder]
      rw [ih hwf hrest (mt (hmem u).mp hu)]
      show keys[u]?.getD 0 = r.keyOf u
      rw [Table.getD_of_put hkeys, if_neg hw]
      rfl

/-- The best element `v` of a list was taken, and `r'` is what is left. -/
structure Took (r : RankedList) (v : Vertex) (r' : RankedList) : Prop where
  wellFormed : r'.WellFormed
  mem : v ∈ r.order
  order_perm : r.order.Perm (v :: r'.order)
  size_removed : r'.removed.size = r.removed.size
  get_removed : ∀ u, u ≠ v → r'.removed.get u = r.removed.get u
  score : ∀ u, r'.score u = r.score u
  fold : ∀ u, r'.keyOf u = r.keyOf u ∨
    r'.keyOf u < r.keyOf u ∧ r.pendingOf u < 0 ∧ r'.pendingOf u ≤ 0 ∧ u ∈ r.order
  best : ∀ u ∈ r'.order, r'.keyOf u ≤ r'.keyOf v ∧
    (r'.pendingOf v < 0 → r'.keyOf u ≤ foldedKey (r'.keyOf v) (r'.pendingOf v))

theorem WellFormed.took_of_extractMax (h : r.WellFormed) (hr : r.extractMax = .ok (v, r')) :
    r.Took v r' := by
  obtain ⟨first, tail, s, rest, -, hsettle, horder, hremove⟩ := eq_of_extractMax hr
  obtain ⟨hs, hfolded, hsettled⟩ := h.of_settle hsettle
  obtain ⟨hwf, herase, hkeys, hpending, hsize, hother⟩ := hs.of_remove hremove
  have hkeyOf : ∀ u, r'.keyOf u = s.keyOf u := fun u => by rw [keyOf, hkeys]; rfl
  have hpendingOf : ∀ u, r'.pendingOf u = s.pendingOf u := fun u => by
    rw [pendingOf, hpending]; rfl
  have hrest : r'.order = rest := by rw [herase, horder, List.erase_cons_head]
  have hperm : r.order.Perm s.order :=
    (List.perm_ext_iff_of_nodup h.nodup hs.nodup).mpr fun u =>
      (h.mem_congr hs hfolded.removed).symm
  refine ⟨hwf, ?_, ?_, ?_, fun u hu => ?_, fun u => ?_, fun u => ?_, fun u hu => ?_⟩
  · exact hperm.mem_iff.mpr (horder ▸ List.mem_cons_self)
  · rwa [hrest, ← horder]
  · rw [hsize, hfolded.removed]
  · have hentry := hother u hu
    rw [Table.getElem?_eq, Table.getElem?_eq, hfolded.removed] at hentry
    rw [Table.get, Table.get, hentry]
  · show (r'.keyOf u : Int) + r'.pendingOf u = r.score u
    rw [hkeyOf, hpendingOf]
    exact hfolded.score u
  · rw [hkeyOf, hpendingOf]
    by_cases hu : u ∈ r.order
    · have := hfolded.fold u
      simp only [hu, and_true]
      exact this
    · exact .inl (h.keyOf_of_settle hsettle hu)
  · rw [hkeyOf, hkeyOf, hpendingOf]
    exact hsettled v rest horder u (hrest ▸ hu)

end RankedList

namespace RunQueue

variable {q q' : RunQueue} {r r' : RankedList} {v : Vertex}

/-- The element `v` of a queue was taken out of it, and `q'` is what is left. -/
structure TookBest (q : RunQueue) (v : Vertex) (q' : RunQueue) : Prop where
  present : q.isRemoved v = .ok false
  gone : q'.isRemoved v = .ok true
  others : ∀ u, u ≠ v → q'.isRemoved u = q.isRemoved u
  size : q'.size + 1 = q.size
  -- A key falls only at an element with a pending decrease, which shrinks by as much.
  fold : ∀ {u key} {pending : Int}, q.key u = .ok key → q.pendingOf u = .ok pending →
    ∃ key', ∃ pending' : Int, q'.key u = .ok key' ∧ q'.pendingOf u = .ok pending' ∧
      (key' : Int) + pending' = key + pending ∧
      (key' = key ∧ pending' = pending ∨
        key' < key ∧ pending < pending' ∧ pending' ≤ 0 ∧ q.isRemoved u = .ok false)
  -- No element left has a key above that of `v`, nor above what a fold would leave of it.
  best : ∀ {key} {pending : Int}, q'.key v = .ok key → q'.pendingOf v = .ok pending →
    ∀ {u other}, q'.isRemoved u = .ok false → q'.key u = .ok other →
      (0 ≤ pending → other ≤ key) ∧
      (pending < 0 → (other : Int) ≤ max 0 (key + pending - pending.tdiv 2))

-- Without pending changes, no id changes but for the one that is taken.
theorem TookBest.unchanged {u : Vertex} {key : Nat} {pending : Int} (h : q.TookBest v q')
    (hzero : ∀ w, q.isRemoved w = .ok false → q.pendingOf w = .ok 0) (hkey : q.key u = .ok key)
    (hpending : q.pendingOf u = .ok pending) :
    q'.key u = .ok key ∧ q'.pendingOf u = .ok pending := by
  obtain ⟨key', pending', hkey', hpending', hsum, hcase⟩ := h.fold hkey hpending
  rcases hcase with ⟨rfl, rfl⟩ | ⟨hfall, hless, hleft, hlive⟩
  · exact ⟨hkey', hpending'⟩
  · -- a key fell, but the decrease that was pending is zero
    have hpending₀ := hpending.symm.trans (hzero u hlive)
    cases hpending₀
    omega

namespace Represents

variable {u : Vertex} {key : Nat} {pending : Int}

theorem isRemoved_eq_false_iff (h : q.Represents r) : q.isRemoved u = .ok false ↔ u ∈ r.order := by
  rw [h.isRemoved_eq, Table.get_eq_ok_iff, h.wellFormed.mem_order_iff]

theorem key_eq_ok_iff (h : q.Represents r) :
    q.key u = .ok key ↔ u < r.removed.size ∧ r.keyOf u = key := by
  rw [RunQueue.key, h.keys]
  by_cases hu : u < r.removed.size
  · rw [h.wellFormed.get_keys hu]
    simp [hu]
  · have hle : r.keys.size ≤ u := h.wellFormed.size_keys ▸ Nat.not_lt.mp hu
    rw [Table.get_eq_error_iff.mpr ⟨hle, rfl⟩]
    simp [hu]

theorem pendingOf_eq_ok_iff (h : q.Represents r) :
    q.pendingOf u = .ok pending ↔ u < r.removed.size ∧ r.pendingOf u = pending := by
  rw [RunQueue.pendingOf, h.pending]
  by_cases hu : u < r.removed.size
  · rw [h.wellFormed.get_pending hu]
    simp [hu]
  · have hle : r.pending.size ≤ u := h.wellFormed.size_pending ▸ Nat.not_lt.mp hu
    rw [Table.get_eq_error_iff.mpr ⟨hle, rfl⟩]
    simp [hu]

theorem effectiveKey_of_mem (h : q.Represents r) (hfits : r.Foldable) (hu : u ∈ r.order)
    (hpending : r.pendingOf u = 0) : q.effectiveKey u = .ok (r.keyOf u : Int) := by
  have hlt := h.wellFormed.lt_of_mem hu
  have hkey := (hfits u hu).1
  rw [h.effectiveKey_eq, h.wellFormed.get_keys hlt, ok_bind, h.wellFormed.get_pending hlt, ok_bind,
    hpending, Score.add, Score.checked_eq_ok (by unfold Score.Fits; omega), Int.add_zero]

/-- Where a list takes its best element, so does the queue that represents it. -/
theorem tookBest (h : q.Represents r) (h' : q'.Represents r') (htook : r.Took v r') :
    q.TookBest v q' := by
  have hwf := h.wellFormed
  have hsize := htook.size_removed
  have hkey' : ∀ u, u < r.removed.size → q'.key u = .ok (r'.keyOf u) := fun u hu =>
    h'.key_eq_ok_iff.mpr ⟨hsize ▸ hu, rfl⟩
  have hpending' : ∀ u, u < r.removed.size → q'.pendingOf u = .ok (r'.pendingOf u) := fun u hu =>
    h'.pendingOf_eq_ok_iff.mpr ⟨hsize ▸ hu, rfl⟩
  refine ⟨h.isRemoved_eq_false_iff.mpr htook.mem, ?gone, fun u hu => ?others, ?size, ?fold, ?best⟩
  case gone =>
    have hnodup : (v :: r'.order).Nodup := htook.order_perm.nodup_iff.mp hwf.nodup
    rw [h'.isRemoved_eq, Table.get_eq_ok_iff]
    apply h'.wellFormed.removed_eq_true
    · exact hsize ▸ hwf.lt_of_mem htook.mem
    · exact (List.nodup_cons.mp hnodup).1
  case others =>
    rw [h.isRemoved_eq, h'.isRemoved_eq]
    exact htook.get_removed u hu
  case size =>
    rw [h.size, h'.size, htook.order_perm.length_eq, List.length_cons]
  case fold =>
    intro u key pending hkey hpending
    obtain ⟨hu, rfl⟩ := h.key_eq_ok_iff.mp hkey
    obtain ⟨-, rfl⟩ := h.pendingOf_eq_ok_iff.mp hpending
    have hscore : (r'.keyOf u : Int) + r'.pendingOf u = r.keyOf u + r.pendingOf u := htook.score u
    refine ⟨r'.keyOf u, r'.pendingOf u, hkey' u hu, hpending' u hu, hscore, ?_⟩
    rcases htook.fold u with heq | ⟨hfall, hneg, hleft, hlive⟩
    · left
      omega
    · right
      exact ⟨hfall, by omega, hleft, h.isRemoved_eq_false_iff.mpr hlive⟩
  case best =>
    intro key pending hkey hpending u other hu hother
    obtain ⟨-, rfl⟩ := h'.key_eq_ok_iff.mp hkey
    obtain ⟨-, rfl⟩ := h'.pendingOf_eq_ok_iff.mp hpending
    obtain ⟨-, rfl⟩ := h'.key_eq_ok_iff.mp hother
    obtain ⟨hle, hfold⟩ := htook.best u (h'.isRemoved_eq_false_iff.mp hu)
    refine ⟨fun _ => hle, fun hneg => ?_⟩
    have hfolded := hfold hneg
    have hlower := cast_foldedKey (r'.keyOf v) (Int.le_of_lt hneg)
    have hhalf := tdiv_two_of_nonpos (Int.le_of_lt hneg)
    omega

-- Without pending changes, the element that is taken has the best score.
theorem effectiveKey_le (h : q.Represents r) (hfits : r.Foldable) (htook : q.TookBest v q')
    (hzero : ∀ w, q.isRemoved w = .ok false → q.pendingOf w = .ok 0) :
    ∃ largest, q.effectiveKey v = .ok largest ∧
      ∀ u, q.isRemoved u = .ok false → ∃ score, q.effectiveKey u = .ok score ∧
        score ≤ largest := by
  have hlive : ∀ u, q.isRemoved u = .ok false → q.key u = .ok (r.keyOf u) ∧
      q.pendingOf u = .ok 0 ∧ q.effectiveKey u = .ok (r.keyOf u : Int) := fun u hu => by
    have hmem := h.isRemoved_eq_false_iff.mp hu
    have hpending := hzero u hu
    have hkey : q.key u = .ok (r.keyOf u) :=
      h.key_eq_ok_iff.mpr ⟨h.wellFormed.lt_of_mem hmem, rfl⟩
    exact ⟨hkey, hpending, h.effectiveKey_of_mem hfits hmem (h.pendingOf_eq_ok_iff.mp hpending).2⟩
  obtain ⟨hkey, hpending, heffective⟩ := hlive v htook.present
  obtain ⟨hkey', hpending'⟩ := htook.unchanged hzero hkey hpending
  refine ⟨r.keyOf v, heffective, fun u hu => ?_⟩
  obtain ⟨hkeyu, hpendingu, heffectiveu⟩ := hlive u hu
  refine ⟨r.keyOf u, heffectiveu, Int.ofNat_le.mpr ?_⟩
  by_cases huv : u = v
  · rw [huv]
  · have hleft : q'.isRemoved u = .ok false := (htook.others u huv).trans hu
    have hkeyu' := (htook.unchanged hzero hkeyu hpendingu).1
    exact (htook.best hkey' hpending' hleft hkeyu').1 (Int.le_refl 0)

end Represents

/-- A queue that a history of scores leads to gives out its best element, if it has one.  Without
pending changes this is an element of the best score, and nothing else changes. -/
theorem exists_tookBest_of_history {n : Nat} {q₀ : RunQueue} {history : List Operation}
    (hnew : new n = .ok q₀) (hhistory : ∀ operation ∈ history, operation.Fits)
    (hq : q₀.performAll history = .ok q) (hlive : ∃ u, q.isRemoved u = .ok false) :
    ∃ v q', q.extractMax = .ok (v, q') ∧ q.TookBest v q' ∧
      ((∀ u, q.isRemoved u = .ok false → q.pendingOf u = .ok 0) →
        (∀ {u key pending}, q.key u = .ok key → q.pendingOf u = .ok pending →
          q'.key u = .ok key ∧ q'.pendingOf u = .ok pending) ∧
        ∃ largest, q.effectiveKey v = .ok largest ∧
          ∀ u, q.isRemoved u = .ok false → ∃ score, q.effectiveKey u = .ok score ∧
            score ≤ largest) := by
  obtain ⟨r₀, hr₀, h₀⟩ := (new_alike n).exists_right hnew
  obtain ⟨r, hr, h⟩ := (h₀.performAll_alike history).exists_right hq
  have hfits : r.Foldable :=
    h₀.wellFormed.foldable_of_performAll (RankedList.foldable_of_new hr₀) hhistory hr
  obtain ⟨u, hu⟩ := hlive
  have hne : r.order ≠ [] := List.ne_nil_of_mem (h.isRemoved_eq_false_iff.mp hu)
  obtain ⟨v, r', hextract⟩ := h.wellFormed.exists_extractMax hfits hne
  obtain ⟨⟨v', q'⟩, hextract', hv, h'⟩ := h.extractMax_alike.exists_left hextract
  obtain rfl : v' = v := hv
  have htook : q.TookBest v' q' := h.tookBest h' (h.wellFormed.took_of_extractMax hextract)
  exact ⟨v', q', hextract', htook, fun hzero => ⟨htook.unchanged hzero,
    h.effectiveKey_le hfits htook hzero⟩⟩

set_option maxRecDepth 100000 in
/-- The lowest score pending at the head sinks it to the end, and the element after it is taken with
a decrease still pending, since half of it leaves its key at that of the next. -/
theorem exists_tookBest_of_history_of_lowest :
    ∃ q₀ q q', new 4 = .ok q₀ ∧
      q₀.performAll [.assignKeys ⟨#[5, 4, 3, 1]⟩, .setPending 0 (-2147483648), .setPending 1 (-2),
        .addPending 3 7] = .ok q ∧
      q.extractMax = .ok (1, q') ∧ q'.toList = .ok [2, 3, 0] ∧ q.TookBest 1 q' := by
  obtain ⟨x, hrun, hx⟩ := exists_eq_ok (f := id) (b := (false, 1, [2, 3, 0]))
    (x := new 4 >>= fun q₀ => q₀.performAll [.assignKeys ⟨#[5, 4, 3, 1]⟩,
      .setPending 0 (-2147483648), .setPending 1 (-2), .addPending 3 7] >>= fun q =>
        q.isRemoved 0 >>= fun removed => q.extractMax >>= fun y => y.2.toList >>= fun order =>
          .ok (removed, y.1, order)) (by cbv)
  cases hx
  obtain ⟨q₀, hnew, h₁⟩ := bind_eq_ok_iff.mp hrun
  obtain ⟨q, hq, h₂⟩ := bind_eq_ok_iff.mp h₁
  obtain ⟨removed, hremoved, h₃⟩ := bind_eq_ok_iff.mp h₂
  obtain ⟨⟨v, q'⟩, hextract, h₄⟩ := bind_eq_ok_iff.mp h₃
  obtain ⟨order, horder, h₅⟩ := bind_eq_ok_iff.mp h₄
  cases h₅
  obtain ⟨v', q'', hextract', htook, -⟩ :=
    exists_tookBest_of_history hnew (by decide) hq ⟨0, hremoved⟩
  cases hextract.symm.trans hextract'
  exact ⟨q₀, q, q', hnew, hq, hextract, horder, htook⟩

end RunQueue

end LocalityOrder
