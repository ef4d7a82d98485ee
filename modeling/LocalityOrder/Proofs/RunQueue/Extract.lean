import LocalityOrder.Proofs.RankedList.Fold
import LocalityOrder.Proofs.RunQueue.Represents

/-!
# Taking the best element of a run queue

A queue sinks its head by walking from run to run, where the ranked list that it represents skips
element by element.  They put it in the same place, so a queue and its list settle alike and give
out the same element.
-/

namespace LocalityOrder

namespace RunQueue

/-! ## One fold -/

theorem tdiv_two_of_nonpos {x : Int} (h : x ≤ 0) : x.tdiv 2 = -(-x / 2) := by
  have hneg := Int.neg_tdiv (-x) 2
  rw [Int.neg_neg] at hneg
  rw [hneg, Int.tdiv_eq_ediv_of_nonneg (by omega)]

-- What the queue computes by adding and taking back is what the list computes by subtraction.
theorem fold_eq_folded {key : Nat} {pending : Int} (hneg : pending < 0) :
    fold key pending = RankedList.folded key pending := by
  have hdiv := tdiv_two_of_nonpos (Int.le_of_lt hneg)
  have hhalf : (key : Int) - ((pending.natAbs + 1) / 2 : Nat) =
      key + pending - pending.tdiv 2 := by omega
  have hkey : (key + pending - pending.tdiv 2).toNat = RankedList.foldedKey key pending := by
    unfold RankedList.foldedKey
    omega
  unfold fold RankedList.folded Score.add Score.sub Score.checked
  dsimp only
  rw [hhalf]
  by_cases hexact : Score.Fits (key + pending)
  · by_cases hfolded : Score.Fits (key + pending - pending.tdiv 2)
    · rw [if_pos hexact, ok_bind, if_pos hfolded, ok_bind, hkey]
      by_cases hleft : Score.Fits (key + pending - RankedList.foldedKey key pending)
      · rw [if_pos hleft, if_pos ⟨hexact, hfolded, hleft⟩]
        rfl
      · rw [if_neg hleft, if_neg fun h => hleft h.2.2]
        rfl
    · rw [if_pos hexact, ok_bind, if_neg hfolded, if_neg fun h => hfolded h.2.1]
      rfl
  · rw [if_neg hexact, if_neg fun h => hexact h.1]
    rfl

namespace Represents

variable {q : RunQueue} {r : RankedList} {v : Vertex}

-- The walk along the runs ends between the elements whose key is at least `bound` and the
-- others.
theorem exists_lastAtLeast (h : q.Represents r) (bound : Nat) {fuel : Nat} (hv : v ∈ r.order)
    (hbound : bound ≤ r.keyOf v) (hfuel : r.keyOf v < fuel) :
    ∃ high low last, r.order = high ++ low ∧ (∀ w ∈ high, bound ≤ r.keyOf w) ∧
      (∀ w ∈ low, r.keyOf w < bound) ∧ high.getLast? = some last ∧
      q.lastAtLeast bound fuel (r.keyOf v) = .ok (last, low.head?) := by
  have hwf := h.wellFormed
  induction fuel generalizing v with
  | zero => exact absurd hfuel (Nat.not_lt_zero _)
  | succ fuel ih =>
    obtain ⟨run, hrun, hends⟩ := h.runs.exists_run hv
    have hlast := Run.last_of_ends hends
    obtain ⟨hmem, hkey⟩ := List.mem_filter.mp (List.mem_of_getLast? hlast)
    replace hkey : r.keyOf run.last = r.keyOf v := by simpa using hkey
    obtain ⟨l₁, l₂, horder⟩ := List.append_of_mem hmem
    have hdescends := horder ▸ hwf.descends
    have hseg := horder ▸ h.segment
    have hhigh : ∀ w ∈ l₁ ++ [run.last], bound ≤ r.keyOf w := by
      intro w hw
      rcases List.mem_append.mp hw with hw | hw
      · have := hdescends.le_front hw
        omega
      · rw [List.mem_singleton.mp hw]
        omega
    have hend : (l₁ ++ [run.last]).getLast? = some run.last := by
      rw [List.getLast?_append, List.getLast?_singleton, Option.some_or]
    rw [lastAtLeast, hrun, ok_bind, Chain.link_eq_ok_iff.mpr hseg.link_eq, ok_bind]
    cases l₂ with
    | nil =>
      have hsplit : r.order = (l₁ ++ [run.last]) ++ [] := by simpa using horder
      exact ⟨l₁ ++ [run.last], [], run.last, hsplit, hhigh, by simp, hend, rfl⟩
    | cons next rest =>
      have hsplit : r.order = (l₁ ++ [run.last]) ++ next :: rest := by simpa using horder
      have hnext : next ∈ r.order := by simp [horder]
      have hle := hdescends.tail_le (List.mem_cons_self (a := next) (l := rest))
      -- the run ends at `run.last`, so the next key is a lower one
      have hne : r.keyOf next ≠ r.keyOf v := by
        rw [horder] at hlast
        exact ne_of_getLast?_filter (horder ▸ hwf.nodup) hlast
      have hget : q.keys.get next = .ok (r.keyOf next) :=
        h.keys ▸ hwf.get_keys (hwf.lt_of_mem hnext)
      rw [List.head?_cons]
      dsimp only
      rw [hget, ok_bind]
      split
      next hbound' => exact ih hnext hbound' (by omega)
      next hbound' =>
        refine ⟨l₁ ++ [run.last], next :: rest, run.last, hsplit, hhigh, fun w hw => ?_, hend, rfl⟩
        have := hdescends.of_append_right.of_cons.le_head hw
        omega

-- From the head, the walk ends where the head belongs with its lower key.
theorem exists_walk (h : q.Represents r) {next : Vertex} {rest : List Vertex} {lower : Nat}
    (horder : r.order = v :: next :: rest) (hlower : lower < r.keyOf next) :
    ∃ tail low last, rest = tail ++ low ∧ (next :: tail).getLast? = some last ∧
      insertByKey r.keyOf lower v (next :: rest) = (next :: tail) ++ v :: low ∧
      q.lastAtLeast lower (r.keyOf v + 1) (r.keyOf v) = .ok (last, low.head?) := by
  have hmem : v ∈ r.order := by simp [horder]
  have hdescends : Descends r.keyOf (v :: next :: rest) := horder ▸ h.wellFormed.descends
  have hnext : r.keyOf next ≤ r.keyOf v := hdescends.le_head (by simp)
  obtain ⟨high, low, last, hsplit, hhigh, hlow, hlast, hwalk⟩ :=
    h.exists_lastAtLeast lower hmem (by omega) (Nat.lt_succ_self _)
  -- the second element is still above the lower key, so the walk passes it
  obtain ⟨tail, rfl, rfl⟩ : ∃ tail, high = v :: next :: tail ∧ rest = tail ++ low := by
    rw [horder] at hsplit
    match high, hlast with
    | [_], _ =>
      obtain ⟨rfl, rfl⟩ : v = _ ∧ next :: rest = low := by simpa using hsplit
      have := hlow next List.mem_cons_self
      omega
    | _ :: _ :: tail, _ =>
      obtain ⟨rfl, rfl, rfl⟩ : v = _ ∧ next = _ ∧ rest = tail ++ low := by simpa using hsplit
      exact ⟨tail, rfl, rfl⟩
  rw [List.getLast?_cons_cons] at hlast
  refine ⟨tail, low, last, rfl, hlast, ?_, hwalk⟩
  rw [← List.cons_append]
  exact Descends.insertByKey_eq (fun w hw => hhigh w (List.mem_cons_of_mem v hw)) hlow

-- Sinking the head puts it where its lower key belongs.
theorem exists_sink (h : q.Represents r) {next : Vertex} {rest : List Vertex} {lower : Nat}
    {left : Int} {keys : Table Nat} {pending : Table Score}
    (horder : r.order = v :: next :: rest) (hlower : lower < r.keyOf next)
    (hkeys : r.keys.put v lower = .ok keys) (hpending : r.pending.put v left = .ok pending) :
    ∃ q', q.sink v (r.keyOf v) ⟨none, some next⟩ lower left = .ok q' ∧
      q'.Represents { r with
        order := insertByKey r.keyOf lower v (next :: rest), keys, pending } := by
  have hwf := h.wellFormed
  have hmem : v ∈ r.order := by simp [horder]
  have horder' : r.order = [] ++ v :: next :: rest := horder
  have hdescends := horder' ▸ hwf.descends
  have hnodup := horder' ▸ hwf.nodup
  have hnot : v ∉ next :: rest := (List.nodup_cons.mp hnodup).1
  obtain ⟨tail, low, last, htail, hlast, hinsert, hwalk⟩ := h.exists_walk horder hlower
  have hsplit : [] ++ (next :: rest) = (next :: tail) ++ low := by
    rw [htail]
    rfl
  obtain ⟨c₁, c₂, hunlink, -, hmove, hseg, hother⟩ :=
    Chain.exists_move (horder' ▸ h.segment) hnodup hsplit
  rw [hlast] at hmove
  obtain ⟨runs₁, hleave, hsize, hmarks₁⟩ :=
    (horder' ▸ h.runs : RunTable.Marks q.runs _ _).exists_leave hdescends hnodup
  have hv : keys[v]?.getD 0 = lower := by
    rw [Table.getD_of_put hkeys, if_pos rfl]
  have heq : ∀ w ∈ next :: rest, keys[w]?.getD 0 = r.keyOf w := fun w hw => by
    apply (Table.getD_of_put hkeys w 0).trans
    apply if_neg
    rintro rfl
    exact hnot hw
  have hroom : lower < runs₁.size := by
    have hnext := h.runs.lt_size (v := next) (by simp [horder])
    omega
  obtain ⟨runs₂, happend, -, hmarks₂⟩ :=
    hmarks₁.exists_append hdescends.of_cons heq hv hroom
  have hwf' := hwf.insertByKey_erase hmem hkeys (Table.size_of_put hpending)
  rw [hwf.erase_eq horder'] at hwf'
  unfold sink
  rw [hwalk, ok_bind]
  dsimp only
  rw [hunlink, ok_bind, hmove, ok_bind, h.keys, hkeys, ok_bind, h.pending, hpending, ok_bind]
  change ∃ q', (q.runs.leave (r.keyOf v) v ⟨[].getLast?, (next :: rest).head?⟩ >>= _) = _ ∧ _
  rw [hleave, ok_bind, happend, ok_bind]
  refine ⟨_, rfl, h.of_moved horder' hwf' rfl rfl (hinsert ▸ hseg) (horder' ▸ hother) ?_ hmarks₂⟩
  dsimp only
  rw [List.nil_append, hinsert]
  rfl

theorem sinkHead_alike (h : q.Represents r) (hne : r.order ≠ []) :
    Alike (fun x y => x.1 = y.1 ∧ x.2.Represents y.2) q.sinkHead r.sinkHead := by
  have hwf := h.wellFormed
  obtain ⟨v, tail, horder⟩ := List.exists_cons_of_ne_nil hne
  have hv : v < r.removed.size := hwf.lt_of_mem (by simp [horder])
  have hseg : q.chain.Segment none ([] ++ v :: tail) none := horder ▸ h.segment
  have hpending : q.pending.get v = .ok (r.pendingOf v) := h.pending ▸ hwf.get_pending hv
  have hkey : q.keys.get v = .ok (r.keyOf v) := h.keys ▸ hwf.get_keys hv
  unfold RunQueue.sinkHead
  rw [h.head, horder, List.head?_cons, Chain.expect, ok_bind, hpending, ok_bind]
  rw [Chain.link_eq_ok_iff.mpr hseg.link_eq, ok_bind]
  cases tail with
  | nil =>
    have hr : r.sinkHead = .ok (false, r) := by
      unfold RankedList.sinkHead
      rw [horder]
    rw [hr]
    split
    next => exact .ok ⟨rfl, h⟩
    next => exact .ok ⟨rfl, h⟩
  | cons next rest =>
    have hnext : q.keys.get next = .ok (r.keyOf next) :=
      h.keys ▸ hwf.get_keys (hwf.lt_of_mem (by simp [horder]))
    -- both sides fold the head alike and compare it with the second element
    rw [hwf.sinkHead_of_cons_cons horder]
    split
    next => exact .ok ⟨rfl, h⟩
    next hpending' =>
      dsimp only [List.head?_cons]
      rw [hkey, ok_bind, fold_eq_folded (Int.lt_of_not_ge hpending')]
      refine .bind_same fun folded hfold => ?_
      obtain ⟨lower, left⟩ := folded
      dsimp only
      rw [hnext, ok_bind]
      split
      next => exact .ok ⟨rfl, h⟩
      next hlower =>
        obtain ⟨keys, hkeys, -⟩ := Table.exists_put (hwf.size_keys.symm ▸ hv) lower
        obtain ⟨pending, hput, -⟩ := Table.exists_put (hwf.size_pending.symm ▸ hv) left
        obtain ⟨q', hsink, hrep⟩ := h.exists_sink horder (Nat.lt_of_not_le hlower) hkeys hput
        rw [hkeys, ok_bind, hput, ok_bind]
        change Alike _ (q.sink v (r.keyOf v) ⟨none, some next⟩ lower left >>= _) _
        rw [hsink, ok_bind]
        exact .ok ⟨rfl, hrep⟩

theorem settle_alike (h : q.Represents r) (hne : r.order ≠ []) (fuel : Nat) :
    Alike Represents (settle fuel q) (RankedList.settle fuel r) := by
  induction fuel generalizing q r with
  | zero => exact .error _
  | succ fuel ih =>
    rw [settle, RankedList.settle]
    have hsinks := h.sinkHead_alike hne
    cases hr : r.sinkHead with
    | error e =>
      rw [hsinks.eq_error hr]
      exact .error e
    | ok y =>
      obtain ⟨sank, r'⟩ := y
      obtain ⟨⟨sank', q'⟩, hq, heq, h'⟩ := hsinks.exists_left hr
      obtain rfl : sank' = sank := heq
      rw [hq, ok_bind, ok_bind]
      cases sank' with
      | false => exact .ok h'
      | true =>
        obtain ⟨hwf, hfolded, -⟩ := h.wellFormed.of_sinkHead hr
        exact ih h' (h.wellFormed.ne_nil_congr hwf hfolded.removed hne)

/-- A queue gives out the element that its list gives out. -/
theorem extractMax_alike (h : q.Represents r) :
    Alike (fun x y => x.1 = y.1 ∧ x.2.Represents y.2) q.extractMax r.extractMax := by
  have hwf := h.wellFormed
  unfold RunQueue.extractMax RankedList.extractMax
  rw [h.head]
  cases horder : r.order with
  | nil => exact .error _
  | cons first rest =>
    have hfirst : q.keys.get first = .ok (r.keyOf first) :=
      h.keys ▸ hwf.get_keys (hwf.lt_of_mem (by simp [horder]))
    rw [List.head?_cons]
    dsimp only
    have hne : r.order ≠ [] := by simp [horder]
    rw [hfirst, ok_bind, h.size, ← horder]
    have hsettles := h.settle_alike hne (r.order.length * r.keyOf first + 1)
    cases hr : RankedList.settle (r.order.length * r.keyOf first + 1) r with
    | error e =>
      rw [hsettles.eq_error hr]
      exact .error e
    | ok r' =>
      obtain ⟨q', hq, h'⟩ := hsettles.exists_left hr
      obtain ⟨hwf', hfolded, -⟩ := hwf.of_settle hr
      obtain ⟨v, _, horder'⟩ :=
        List.exists_cons_of_ne_nil (hwf.ne_nil_congr hwf' hfolded.removed hne)
      rw [hq, ok_bind, ok_bind, h'.head, horder', List.head?_cons, Chain.expect, ok_bind]
      exact (h'.remove_alike v).bind fun _ _ h₁ => .ok ⟨rfl, h₁⟩

end Represents

end RunQueue

end LocalityOrder
