import LocalityOrder.Proofs.Digraph
import LocalityOrder.Proofs.Digraph.Edges

/-!
# Three ways of giving a graph

A graph is given by its lists, by its edges, or by a buffer of slots.  Edges give the same graph as
lists exactly if the edges of each vertex, taken for themselves, lead to its list in order.  A
buffer does exactly if each slot begins with the list of its vertex and then either is full or has
a negative entry; what comes after that entry does not matter.
-/

namespace LocalityOrder

namespace Digraph

variable {lists : List (List Vertex)} {list : List Vertex} {edges : List (Vertex × Vertex)}
  {slot : List Int} {buffer : Array Int} {width n v : Nat}

theorem targets_ofLists (lists : List (List Vertex)) (v : Vertex) :
    (ofLists lists).targets v = lists[v]?.getD [] := by
  show (lists.toArray[v]?).getD [] = _
  rw [List.getElem?_toArray]

theorem ofLists_inj {lists' : List (List Vertex)} : ofLists lists = ofLists lists' ↔
    lists = lists' := by
  constructor
  · intro h
    exact congrArg (fun g : Digraph => g.lists.toList) h
  · rintro rfl
    rfl

/-! ## Edges -/

theorem lt_of_ofEdges {g : Digraph} (h : ofEdges n edges = .ok g) : ∀ edge ∈ edges, edge.1 < n := by
  obtain ⟨rows, hrows, -⟩ := bind_eq_ok_iff.mp h
  have hlt := Table.lt_of_foldlM_push hrows
  rwa [Table.size_filled] at hlt

/-- The edges give the graph of the lists if the targets of the edges from each vertex are its
list. -/
theorem ofEdges_eq_ok_iff : ofEdges lists.length edges = .ok (ofLists lists) ↔
    (∀ edge ∈ edges, edge.1 < lists.length) ∧ ∀ (v : Nat) list, lists[v]? = some list →
      (edges.filter fun edge => edge.1 = v).map Prod.snd = list := by
  constructor
  · intro h
    refine ⟨lt_of_ofEdges h, fun v list hlist => ?_⟩
    have hv : v < lists.length := (List.getElem?_eq_some_iff.mp hlist).1
    rw [← (of_ofEdges h).2 v hv, targets_ofLists, hlist, Option.getD_some]
  · rintro ⟨hlt, hlists⟩
    obtain ⟨g, hg⟩ := exists_ofEdges hlt
    obtain ⟨hsize, htargets⟩ := of_ofEdges hg
    rw [hg, Except.ok.injEq]
    apply ext_targets hsize
    intro v hv
    rw [hsize] at hv
    have hlist : lists[v]? = some lists[v] := List.getElem?_eq_getElem hv
    rw [htargets v hv, hlists v _ hlist, targets_ofLists, hlist, Option.getD_some]

/-! ## Slots -/

/-- The slot begins with the list, and the entry after it, if there is one, is negative. -/
def SlotHolds (slot : List Int) (list : List Vertex) : Prop :=
  ∃ rest, slot = list.map Int.ofNat ++ rest ∧ ∀ entry ∈ rest.head?, entry < 0

theorem slotHolds_slotList (slot : List Int) : SlotHolds slot (slotList slot) := by
  induction slot with
  | nil => exact ⟨[], rfl, nofun⟩
  | cons entry slot ih =>
    by_cases hentry : 0 ≤ entry
    · obtain ⟨rest, hslot, hrest⟩ := ih
      refine ⟨rest, ?_, hrest⟩
      have hlist : slotList (entry :: slot) = entry.toNat :: slotList slot := by
        simp [slotList, hentry]
      rw [hlist, List.map_cons, List.cons_append, ← hslot]
      show entry :: slot = (entry.toNat : Int) :: slot
      rw [Int.toNat_of_nonneg hentry]
    · have hlist : slotList (entry :: slot) = [] := by simp [slotList, hentry]
      refine ⟨entry :: slot, by rw [hlist]; rfl, fun first hfirst => ?_⟩
      cases hfirst
      omega

theorem SlotHolds.slotList_eq (h : SlotHolds slot list) : slotList slot = list := by
  obtain ⟨rest, rfl, hrest⟩ := h
  induction list with
  | nil =>
    cases rest with
    | nil => rfl
    | cons entry rest =>
      have hentry : entry < 0 := hrest entry rfl
      simp [slotList, hentry]
  | cons id list ih =>
    have hslot : slotList ((id :: list).map Int.ofNat ++ rest) =
        id :: slotList (list.map Int.ofNat ++ rest) := by
      simp [slotList]
    rw [hslot, ih]

theorem slotList_eq_iff : slotList slot = list ↔ SlotHolds slot list := by
  constructor
  · rintro rfl
    exact slotHolds_slotList slot
  · exact SlotHolds.slotList_eq

/-! ## Buffers -/

/-- The entries of `v` in a buffer with `width` entries for each vertex. -/
def slotOf (buffer : Array Int) (width : Nat) (v : Vertex) : List Int :=
  (buffer.toList.drop (v * width)).take width

theorem toList_extract_slot (buffer : Array Int) (width : Nat) (v : Vertex) :
    (buffer.extract (v * width) ((v + 1) * width)).toList = slotOf buffer width v := by
  rw [Array.toList_extract, List.extract_eq_take_drop, Nat.succ_mul, Nat.add_sub_cancel_left]
  rfl

theorem map_all_eq_iff {α : Type} {f : Vertex → α} {values : List α} :
    (Vertex.all n).map f = values ↔
      values.length = n ∧ ∀ (v : Nat) value, values[v]? = some value → f v = value := by
  constructor
  · rintro rfl
    refine ⟨by simp, fun v value hvalue => ?_⟩
    obtain ⟨hv, rfl⟩ := List.getElem?_eq_some_iff.mp hvalue
    simp [Vertex.all]
  · rintro ⟨hlength, hvalues⟩
    apply List.ext_getElem
    · rw [List.length_map, Vertex.length_all, hlength]
    · intro v _ hv
      simp only [Vertex.all, List.getElem_map, List.getElem_range]
      exact hvalues v _ (List.getElem?_eq_getElem hv)

/-- The buffer gives the graph of the lists if it has a slot for each of them, and each is held by
its slot. -/
theorem ofPadded_eq_ok_iff : ofPadded buffer width = .ok (ofLists lists) ↔
    1 ≤ width ∧ buffer.size = lists.length * width ∧ ∀ (v : Nat) list, lists[v]? = some list →
      SlotHolds (slotOf buffer width v) list := by
  unfold ofPadded
  split
  next hbad =>
    refine iff_of_false nofun ?_
    rintro ⟨hwidth, hsize, -⟩
    rcases hbad with hzero | hmod
    · omega
    · rw [hsize, Nat.mul_mod_left] at hmod
      exact hmod rfl
  next hgood =>
    have hwidth : 0 < width := by omega
    have hmod : buffer.size % width = 0 := by omega
    have hlength : lists.length = buffer.size / width ↔ buffer.size = lists.length * width := by
      rw [eq_comm, Nat.div_eq_iff_eq_mul_left hwidth (Nat.dvd_of_mod_eq_zero hmod)]
    rw [Except.ok.injEq, ofLists_inj, map_all_eq_iff, hlength]
    simp only [toList_extract_slot, slotList_eq_iff]
    exact ⟨fun h => ⟨hwidth, h⟩, fun h => h.2⟩

/-! ## Agreement -/

/-- What is given by lists is given by edges just if these come from vertices of the graph and
those of each vertex lead to its list in order, however the edges of different vertices alternate.
It is given by a buffer just if that has a slot of the given width for each vertex, and the slot
begins with the list and then is at its end or goes on with a negative entry, whatever follows. -/
theorem givenBy_edges_and_buffer (lists : List (List Vertex)) :
    (∀ edges, ofEdges lists.length edges = .ok (ofLists lists) ↔
      (∀ edge ∈ edges, edge.1 < lists.length) ∧ ∀ (v : Nat) list, lists[v]? = some list →
        (edges.filter fun edge => edge.1 = v).map Prod.snd = list) ∧
    ∀ width buffer, ofPadded buffer width = .ok (ofLists lists) ↔
      1 ≤ width ∧ buffer.size = lists.length * width ∧ ∀ (v : Nat) list, lists[v]? = some list →
        SlotHolds (slotOf buffer width v) list :=
  ⟨fun _ => ofEdges_eq_ok_iff, fun _ _ => ofPadded_eq_ok_iff⟩

/-- Edges that alternate between their sources, and slots of which one is full and two go on after
a negative entry. -/
theorem givenBy_edges_and_buffer_of_alternation_and_rest :
    ofEdges 3 [(0, 2), (2, 0), (0, 7)] = .ok (ofLists [[2, 7], [], [0]]) ∧
      ofPadded #[2, 7, -1, 5, 0, -4] 2 = .ok (ofLists [[2, 7], [], [0]]) := by
  obtain ⟨hedges, hbuffers⟩ := givenBy_edges_and_buffer [[2, 7], [], [0]]
  constructor
  · apply (hedges [(0, 2), (2, 0), (0, 7)]).mpr
    refine ⟨by decide, fun v list hlist => ?_⟩
    rcases v with _ | _ | _ | v <;> cases hlist <;> rfl
  · apply (hbuffers 2 #[2, 7, -1, 5, 0, -4]).mpr
    refine ⟨by decide, by decide, fun v list hlist => ?_⟩
    rcases v with _ | _ | _ | v
    · cases hlist
      exact ⟨[], rfl, nofun⟩
    · cases hlist
      exact ⟨[-1, 5], rfl, by simp⟩
    · cases hlist
      exact ⟨[-4], rfl, by simp⟩
    · cases hlist

end Digraph

end LocalityOrder
