import LocalityOrder.Proofs.Placement.Tracks
import LocalityOrder.Proofs.Spread.Digraph

/-!
# Ranked lists spread over more ids

Two ranked lists run alike under other names as long as their orders are the same up to the names
and the ids that stand for one another have the same keys and pending changes.  Every operation on
an id and on the one that stands for it keeps this, and it fails on both or on neither.
-/

namespace LocalityOrder

variable {f : Vertex → Vertex} {u v w : Vertex} {key : Nat}

theorem map_insertByKey {keyOf keyOf' : Vertex → Nat} {l : List Vertex}
    (hkeys : ∀ w ∈ l, keyOf' (f w) = keyOf w) :
    insertByKey keyOf' key (f v) (l.map f) = (insertByKey keyOf key v l).map f := by
  induction l with
  | nil => rfl
  | cons w rest ih =>
    have hw := hkeys w List.mem_cons_self
    have hrest := ih fun u hu => hkeys u (List.mem_cons_of_mem w hu)
    rw [List.map_cons, insertByKey_cons, insertByKey_cons, hw, hrest]
    split <;> rfl

-- Writing the same value at both places keeps two tables the same up to the names.
theorem getD_of_put_map {α : Type} {s s' t t' : Table α} {value other : α}
    (hf : Function.Injective f) (hs : s.put v value = .ok t) (hs' : s'.put (f v) value = .ok t')
    (hsame : s'[f w]?.getD other = s[w]?.getD other) :
    t'[f w]?.getD other = t[w]?.getD other := by
  rw [Table.getD_of_put hs', Table.getD_of_put hs, hsame]
  simp only [hf.eq_iff]

namespace RankedList

/-- The second list is the first one, of `n` ids, with other names, as far as these ids go. -/
structure Spread (f : Vertex → Vertex) (n : Nat) (r r' : RankedList) : Prop where
  wellFormed : r.WellFormed
  wellFormed' : r'.WellFormed
  size : r.removed.size = n
  order : r'.order = r.order.map f
  lt_size : ∀ v, v < n → f v < r'.removed.size
  keyOf : ∀ v, v < n → r'.keyOf (f v) = r.keyOf v
  pendingOf : ∀ v, v < n → r'.pendingOf (f v) = r.pendingOf v

namespace Spread

variable {n : Nat} {r r' : RankedList} {rest : List Vertex} {change : Int}

theorem lt_of_mem (h : Spread f n r r') (hv : v ∈ r.order) : v < n :=
  h.size ▸ h.wellFormed.lt_of_mem hv

section Operations

variable (hf : Function.Injective f)

include hf

theorem mem_order_iff (h : Spread f n r r') : f v ∈ r'.order ↔ v ∈ r.order := by
  rw [h.order, List.mem_map_of_injective hf]

/-! ## Moving an element -/

theorem of_moved {keys keys' : Table Nat} {pending pending' : Table Score} (h : Spread f n r r')
    (hv : v ∈ r.order) (hkeys : r.keys.put v key = .ok keys)
    (hkeys' : r'.keys.put (f v) key = .ok keys') (hsize : pending.size = r.pending.size)
    (hsize' : pending'.size = r'.pending.size)
    (hpending : ∀ w, w < n → pending'[f w]?.getD 0 = pending[w]?.getD 0) :
    Spread f n
      { r with order := insertByKey r.keyOf key v (r.order.erase v), keys, pending }
      { r' with
        order := insertByKey r'.keyOf key (f v) (r'.order.erase (f v))
        keys := keys', pending := pending' } where
  wellFormed := h.wellFormed.insertByKey_erase hv hkeys hsize
  wellFormed' := h.wellFormed'.insertByKey_erase ((h.mem_order_iff hf).mpr hv) hkeys' hsize'
  size := h.size
  order := by
    change insertByKey r'.keyOf key (f v) (r'.order.erase (f v)) =
      (insertByKey r.keyOf key v (r.order.erase v)).map f
    rw [h.order, ← List.map_erase hf]
    exact map_insertByKey fun w hw => h.keyOf w (h.lt_of_mem (List.mem_of_mem_erase hw))
  lt_size := h.lt_size
  keyOf w hw := getD_of_put_map hf hkeys hkeys' (h.keyOf w hw)
  pendingOf := hpending

theorem raise_alike (h : Spread f n r r') (hv : v < n) :
    Alike (Spread f n) (r.raise v) (r'.raise (f v)) := by
  have hlt : v < r.removed.size := h.size.symm ▸ hv
  have hlt' := h.lt_size v hv
  by_cases hmem : v ∈ r.order
  · rw [h.wellFormed.raise_of_mem hmem, h.wellFormed'.raise_of_mem ((h.mem_order_iff hf).mpr hmem),
      h.keyOf v hv]
    refine .bind_same fun raised hraised => ?_
    obtain rfl : r.keyOf v + 1 = raised := (raisedKey_eq_ok_iff.mp hraised).2
    obtain ⟨keys, hkeys, -⟩ := Table.exists_put (h.wellFormed.size_keys.symm ▸ hlt) (r.keyOf v + 1)
    obtain ⟨keys', hkeys', -⟩ :=
      Table.exists_put (h.wellFormed'.size_keys.symm ▸ hlt') (r.keyOf v + 1)
    rw [hkeys, hkeys', ok_bind, ok_bind]
    exact .ok (h.of_moved hf hmem hkeys hkeys' rfl rfl h.pendingOf)
  · rw [h.wellFormed.raise_of_not_mem hlt hmem,
      h.wellFormed'.raise_of_not_mem hlt' ((h.mem_order_iff hf).not.mpr hmem)]
    exact .ok h

/-! ## Pending changes and removal -/

theorem setPending_alike (h : Spread f n r r') (hv : v < n) (change : Int) :
    Alike (Spread f n) (r.setPending v change) (r'.setPending (f v) change) := by
  obtain ⟨s, hs⟩ := h.wellFormed.exists_setPending (h.size.symm ▸ hv) change
  obtain ⟨s', hs'⟩ := h.wellFormed'.exists_setPending (h.lt_size v hv) change
  obtain ⟨hwf, horder, hremoved, hkeys, hpending⟩ := h.wellFormed.of_setPending hs
  obtain ⟨hwf', horder', hremoved', hkeys', hpending'⟩ := h.wellFormed'.of_setPending hs'
  rw [hs, hs']
  refine .ok ⟨hwf, hwf', by rw [hremoved, h.size], by rw [horder', h.order, horder],
    fun w hw => ?_, fun w hw => ?_, fun w hw => ?_⟩
  · rw [hremoved']
    exact h.lt_size w hw
  · rw [RankedList.keyOf, hkeys', RankedList.keyOf, hkeys]
    exact h.keyOf w hw
  · rw [hpending', hpending]
    simp only [hf.eq_iff]
    split
    next => rfl
    next => exact h.pendingOf w hw

theorem addPending_alike (h : Spread f n r r') (hv : v < n) (change : Int) :
    Alike (Spread f n) (r.addPending v change) (r'.addPending (f v) change) := by
  rw [h.wellFormed.addPending_of_lt (h.size.symm ▸ hv),
    h.wellFormed'.addPending_of_lt (h.lt_size v hv), h.pendingOf v hv]
  exact .bind_same fun changed _ => h.setPending_alike hf hv changed

theorem remove_alike (h : Spread f n r r') (hv : v < n) :
    Alike (Spread f n) (r.remove v) (r'.remove (f v)) := by
  obtain ⟨s, hs⟩ := WellFormed.exists_remove (r := r) (h.size.symm ▸ hv)
  obtain ⟨s', hs'⟩ := WellFormed.exists_remove (h.lt_size v hv)
  obtain ⟨hwf, horder, hkeys, hpending, hsize, -⟩ := h.wellFormed.of_remove hs
  obtain ⟨hwf', horder', hkeys', hpending', hsize', -⟩ := h.wellFormed'.of_remove hs'
  rw [hs, hs']
  refine .ok ⟨hwf, hwf', hsize.trans h.size, ?_, fun w hw => ?_, fun w hw => ?_, fun w hw => ?_⟩
  · rw [horder', h.order, horder, List.map_erase hf]
  · rw [hsize']
    exact h.lt_size w hw
  · rw [RankedList.keyOf, hkeys', RankedList.keyOf, hkeys]
    exact h.keyOf w hw
  · rw [RankedList.pendingOf, hpending', RankedList.pendingOf, hpending]
    exact h.pendingOf w hw

theorem setAside_alike (h : Spread f n r r') (hv : v < n) :
    Alike (Spread f n) (r.setAside v) (r'.setAside (f v)) :=
  (h.remove_alike hf hv).bind fun _ _ h₁ => h₁.setPending_alike hf hv _

/-! ## Taking the best element -/

theorem sinkHead_alike (h : Spread f n r r') :
    Alike (fun x y => x.1 = y.1 ∧ Spread f n x.2 y.2) r.sinkHead r'.sinkHead := by
  have horder' := h.order
  match horder : r.order with
  | [] =>
    rw [horder, List.map_nil] at horder'
    unfold sinkHead
    rw [horder, horder']
    exact .ok ⟨rfl, h⟩
  | [v] =>
    rw [horder, List.map_singleton] at horder'
    unfold sinkHead
    rw [horder, horder']
    exact .ok ⟨rfl, h⟩
  | v :: next :: rest =>
    rw [horder, List.map_cons, List.map_cons] at horder'
    have hmem : v ∈ r.order := by simp [horder]
    have hv := h.lt_of_mem hmem
    have hnext : next < n := h.lt_of_mem (by simp [horder])
    rw [h.wellFormed.sinkHead_of_cons_cons horder, h.wellFormed'.sinkHead_of_cons_cons horder',
      h.pendingOf v hv, h.keyOf v hv]
    split
    next => exact .ok ⟨rfl, h⟩
    next =>
      refine .bind_same fun folded _ => ?_
      obtain ⟨lower, left⟩ := folded
      dsimp only
      rw [h.keyOf next hnext]
      split
      next => exact .ok ⟨rfl, h⟩
      next =>
        have hlt := h.size.symm ▸ hv
        have hlt' := h.lt_size v hv
        obtain ⟨keys, hkeys, -⟩ := Table.exists_put (h.wellFormed.size_keys.symm ▸ hlt) lower
        obtain ⟨keys', hkeys', -⟩ := Table.exists_put (h.wellFormed'.size_keys.symm ▸ hlt') lower
        obtain ⟨pending, hput, -⟩ := Table.exists_put (h.wellFormed.size_pending.symm ▸ hlt) left
        obtain ⟨pending', hput', -⟩ :=
          Table.exists_put (h.wellFormed'.size_pending.symm ▸ hlt') left
        rw [hkeys, hkeys', ok_bind, ok_bind, hput, hput', ok_bind, ok_bind]
        have hmoved := h.of_moved hf hmem hkeys hkeys' (Table.size_of_put hput)
          (Table.size_of_put hput') fun w hw => getD_of_put_map hf hput hput' (h.pendingOf w hw)
        rw [horder, horder', List.erase_cons_head, List.erase_cons_head] at hmoved
        exact .ok ⟨rfl, hmoved⟩

theorem settle_alike (h : Spread f n r r') (fuel : Nat) :
    Alike (Spread f n) (settle fuel r) (settle fuel r') := by
  induction fuel generalizing r r' with
  | zero => exact .error _
  | succ fuel ih =>
    rw [settle, settle]
    apply (h.sinkHead_alike hf).bind
    intro x y hxy
    obtain ⟨sank, s⟩ := x
    obtain ⟨sank', s'⟩ := y
    obtain ⟨rfl, hs⟩ := hxy
    cases sank with
    | false => exact .ok hs
    | true => exact ih hs

theorem extractMax_alike (h : Spread f n r r') :
    Alike (fun x y => y.1 = f x.1 ∧ x.1 < n ∧ Spread f n x.2 y.2) r.extractMax r'.extractMax := by
  have hlength : r'.order.length = r.order.length := by rw [h.order, List.length_map]
  have horder' := h.order
  unfold extractMax
  match horder : r.order with
  | [] =>
    rw [horder, List.map_nil] at horder'
    rw [horder']
    exact .error _
  | first :: rest =>
    have hfirst : first < n := h.lt_of_mem (by simp [horder])
    rw [horder, List.map_cons] at horder'
    rw [horder, horder'] at hlength
    rw [horder', hlength]
    dsimp only
    rw [h.keyOf first hfirst]
    apply (h.settle_alike hf _).bind
    intro s s' hs
    have hnext := hs.order
    match hcase : s.order with
    | [] =>
      rw [hcase, List.map_nil] at hnext
      rw [hnext]
      exact .error _
    | v :: _ =>
      rw [hcase, List.map_cons] at hnext
      rw [hnext]
      have hv : v < n := hs.lt_of_mem (by simp [hcase])
      exact (hs.remove_alike hf hv).bind fun _ _ h₁ => .ok ⟨rfl, hv, h₁⟩

theorem takeBest_alike (h : Spread f n r r') :
    Alike (fun x y => y.1 = f x.1 ∧ Spread f n x.2 y.2) r.takeBest r'.takeBest := by
  unfold takeBest
  apply (h.extractMax_alike hf).bind
  intro x y hxy
  obtain ⟨v, s⟩ := x
  obtain ⟨v', s'⟩ := y
  obtain ⟨rfl, hv, hs⟩ := hxy
  exact (hs.setAside_alike hf hv).bind fun _ _ h₁ => .ok ⟨rfl, h₁⟩

/-! ## Sliding the window -/

theorem increment_alike (h : Spread f n r r') (hv : v < n) :
    Alike (Spread f n) (r.increment v) (r'.increment (f v)) := by
  rw [h.wellFormed.increment_of_lt (h.size.symm ▸ hv),
    h.wellFormed'.increment_of_lt (h.lt_size v hv), h.pendingOf v hv]
  split
  next => exact h.raise_alike hf hv
  next => exact h.addPending_alike hf hv 1

end Operations

/-- A slide keeps two lists alike if the graphs are alike. -/
theorem slide_alike {g g' : Digraph} {e : Vertex} {leaving : Option Vertex}
    (h : Spread f g.size r r') (hg : g.Spread g' f) (hrange : g.InRange)
    (hne : ∀ b, leaving = some b → e ≠ b) :
    Alike (Spread f g.size) (r.slide g e leaving) (r'.slide g' (f e) (leaving.map f)) := by
  have hlosses : (leaving.map f).elim [] (g'.losses (f e)) =
      (leaving.elim [] (g.losses e)).map f := by
    cases leaving with
    | none => rfl
    | some b => exact hg.losses e b
  unfold RankedList.slide
  rw [hg.gains, hlosses, List.foldlM_map]
  refine (Alike.foldlM (fun v hv _ _ h => ?_) h).bind fun s s' hs => ?_
  · exact h.increment_alike hg.injective (Digraph.lt_size_of_mem_gains hrange hne hv)
  · rw [List.foldlM_map]
    refine Alike.foldlM (fun v hv _ _ h => ?_) hs
    exact h.addPending_alike hg.injective (Digraph.lt_size_of_mem_losses hrange hne hv) (-1)

end Spread

end RankedList

end LocalityOrder
