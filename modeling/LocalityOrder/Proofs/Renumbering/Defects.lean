import LocalityOrder.Proofs.Renumbering.Ids
import Mathlib.Data.List.Perm.Subperm

/-!
# Orders that are refused

A list of ids is an order exactly if it names every id below its length once.  Otherwise it has a
first entry that is out of range or comes a second time, and this entry is what the refusal names.

The places can also be kept in a table of plain ids, in which a marker stands for a place that is
still free.  The marker is the largest id, so it is no position in a list whose length is an id, and
on such lists the table with the marker leads to the same verdicts and the same places.
-/

namespace LocalityOrder

namespace Renumbering

variable {order seen ids : List Vertex} {places : Array (Option Vertex)} {p : Renumbering}
  {i k : Nat} {d d' : OrderDefect} {id : Vertex}

/-! ## The first defect -/

/-- The entry at `i` is no id of a list of this length, or it is an earlier entry again. -/
inductive HasDefect (order : List Vertex) (i : Nat) : OrderDefect → Prop
  | outOfRange {id : Vertex} (hid : order[i]? = some id) (h : order.length ≤ id) :
      HasDefect order i (.outOfRange id)
  | repeated {id : Vertex} (hid : order[i]? = some id) (h : id ∈ order.take i) :
      HasDefect order i (.repeated id)

/-- The entry at `i` has this defect, and no entry before it has one. -/
def FirstDefect (order : List Vertex) (i : Nat) (d : OrderDefect) : Prop :=
  HasDefect order i d ∧ ∀ k < i, ∀ d', ¬ HasDefect order k d'

-- An id out of range cannot come a second time at the first defect, as it was one before.
theorem FirstDefect.unique (h : FirstDefect order i d) (h' : FirstDefect order k d') : d = d' := by
  obtain rfl : i = k := by
    rcases Nat.lt_trichotomy i k with hlt | heq | hgt
    · exact absurd h.1 (h'.2 i hlt d)
    · exact heq
    · exact absurd h'.1 (h.2 k hgt d')
  have hnot : ∀ id, id ∈ order.take i → ¬ order.length ≤ id := fun id hmem hle => by
    obtain ⟨j, hj, rfl⟩ := List.mem_iff_getElem.mp hmem
    rw [List.length_take] at hj
    rw [List.getElem_take] at hle
    exact h.2 j (by omega) _ (.outOfRange (List.getElem?_eq_getElem (by omega)) hle)
  cases h.1 with
  | outOfRange hid hle =>
    cases h'.1 with
    | outOfRange hid' _ => rw [Option.some.inj (hid.symm.trans hid')]
    | repeated hid' hmem =>
      rw [Option.some.inj (hid.symm.trans hid')] at hle
      exact absurd hle (hnot _ hmem)
  | repeated hid hmem =>
    cases h'.1 with
    | outOfRange hid' hle =>
      rw [Option.some.inj (hid.symm.trans hid')] at hmem
      exact absurd hle (hnot _ hmem)
    | repeated hid' _ => rw [Option.some.inj (hid.symm.trans hid')]

/-- The ids seen so far, all of them without a defect, are those that have a place. -/
structure PlacedSoFar (order seen : List Vertex) (places : Array (Option Vertex)) : Prop where
  size_eq : places.size = order.length
  isSome_iff : ∀ {id : Vertex} {entry : Option Vertex},
    places[id]? = some entry → (entry.isSome = true ↔ id ∈ seen)
  sound : ∀ k < seen.length, ∀ d, ¬ HasDefect order k d

theorem PlacedSoFar.set {head : Vertex} (h : PlacedSoFar order seen places)
    (hhead : order[seen.length]? = some head) (hseen : order.take seen.length = seen)
    (hlt : head < places.size) (hnone : places[head] = none) (position : Nat) :
    PlacedSoFar order (seen ++ [head]) (places.set head (some position)) := by
  refine ⟨by rw [Array.size_set, h.size_eq], fun {id entry} hentry => ?_, fun k hk d hd => ?_⟩
  · rw [Array.getElem?_set] at hentry
    split at hentry
    next heq =>
      cases hentry
      simp [heq]
    next hne =>
      rw [h.isSome_iff hentry, List.mem_append, List.mem_singleton]
      simp [Ne.symm hne]
  · rw [List.length_append, List.length_singleton] at hk
    rcases Nat.lt_or_eq_of_le (Nat.le_of_lt_succ hk) with hlt' | rfl
    · exact h.sound k hlt' d hd
    · -- the entry is in range, and its place was free
      have hfree : ¬ head ∈ seen := by
        rw [← h.isSome_iff (Array.getElem?_eq_getElem hlt), hnone]
        decide
      cases hd with
      | outOfRange hid hle =>
        rw [Option.some.inj (hid.symm.trans hhead), ← h.size_eq] at hle
        exact Nat.not_lt.mpr hle hlt
      | repeated hid hmem =>
        rw [Option.some.inj (hid.symm.trans hhead), hseen] at hmem
        exact hfree hmem

-- The induction is on the ids still to come; the ids before them have no defect.
theorem PlacedSoFar.assign_cases (h : PlacedSoFar order seen places) (horder : order = seen ++ ids)
    (position : Nat) :
    (∃ after, assign places position ids = .ok after ∧ ∀ k d, ¬ HasDefect order k d) ∨
      ∃ i d, assign places position ids = .error d ∧ FirstDefect order i d := by
  induction ids generalizing seen places position with
  | nil =>
    refine .inl ⟨places, rfl, fun k d hd => ?_⟩
    have hlength : order.length = seen.length := by rw [horder, List.append_nil]
    have hk : k < order.length := by
      cases hd with
      | outOfRange hid _ => exact (List.getElem?_eq_some_iff.mp hid).1
      | repeated hid _ => exact (List.getElem?_eq_some_iff.mp hid).1
    exact h.sound k (hlength ▸ hk) d hd
  | cons head rest ih =>
    have hhead : order[seen.length]? = some head := by simp [horder]
    have hseen : order.take seen.length = seen := by simp [horder]
    rw [assign]
    split
    next hlt =>
      split
      next hsome =>
        have hmem := (h.isSome_iff (Array.getElem?_eq_getElem hlt)).mp hsome
        exact .inr ⟨seen.length, _, rfl, .repeated hhead (hseen.symm ▸ hmem), h.sound⟩
      next hnone =>
        have hnone : places[head] = none := by simpa using hnone
        exact ih (h.set hhead hseen hlt hnone position) (by simp [horder]) (position + 1)
    next hle =>
      rw [h.size_eq, Nat.not_lt] at hle
      exact .inr ⟨seen.length, _, rfl, .outOfRange hhead hle, h.sound⟩

theorem placedSoFar_nil (order : List Vertex) :
    PlacedSoFar order [] (Array.replicate order.length none) := by
  refine ⟨Array.size_replicate, fun {id entry} hentry => ?_, fun k hk => absurd hk (by simp)⟩
  rw [Array.getElem?_replicate] at hentry
  split at hentry
  · cases hentry
    simp
  · cases hentry

-- An order is read from the places of its ids, and refused where they cannot be given.
theorem ofOrder_cases (order : List Vertex) :
    (∃ after p, assign (Array.replicate order.length none) 0 order = .ok after ∧
      ofOrder order = .ok p ∧ p.oldToNew = ⟨after.map (·.getD 0)⟩) ∨
    ∃ d, assign (Array.replicate order.length none) 0 order = .error d ∧
      ofOrder order = .error (.notAPermutation order.length d) := by
  unfold ofOrder
  split
  next d hd => exact .inr ⟨d, hd, rfl⟩
  next after hafter => exact .inl ⟨after, _, hafter, rfl, rfl⟩

theorem ofOrder_eq_error_iff {cause : Rejection} : ofOrder order = .error cause ↔
    ∃ i d, FirstDefect order i d ∧ cause = .notAPermutation order.length d := by
  rcases (placedSoFar_nil order).assign_cases rfl 0 with ⟨after, hassign, hsound⟩ |
    ⟨i, d, hassign, hfirst⟩
  · rcases ofOrder_cases order with ⟨_, p, -, hp, -⟩ | ⟨d, hd, -⟩
    · rw [hp]
      constructor
      · exact nofun
      · rintro ⟨i, d, hfirst, -⟩
        exact absurd hfirst.1 (hsound i d)
    · rw [hassign] at hd
      cases hd
  · rcases ofOrder_cases order with ⟨after, _, hafter, -⟩ | ⟨d', hd, herror⟩
    · rw [hassign] at hafter
      cases hafter
    · obtain rfl : d = d' := Except.error.inj (hassign.symm.trans hd)
      rw [herror, Except.error.injEq]
      constructor
      · rintro rfl
        exact ⟨i, d, hfirst, rfl⟩
      · rintro ⟨k, d', hfirst', rfl⟩
        rw [hfirst.unique hfirst']

/-! ## Orders -/

theorem perm_all_iff_count : order.Perm (Vertex.all order.length) ↔
    ∀ v, v < order.length → order.count v = 1 := by
  constructor
  · intro h v hv
    rw [h.count_eq]
    exact List.count_eq_one_of_mem List.nodup_range (Vertex.mem_all.mpr hv)
  · intro h
    have hsub : (Vertex.all order.length).Subperm order := by
      apply List.subperm_of_subset List.nodup_range
      intro v hv
      rw [← List.count_pos_iff, h v (Vertex.mem_all.mp hv)]
      exact Nat.one_pos
    exact (hsub.perm_of_length_le (Nat.le_of_eq (Vertex.length_all order.length).symm)).symm

theorem perm_of_ofOrder (h : ofOrder order = .ok p) : order.Perm (Vertex.all order.length) := by
  have hperm := p.map_toOld_perm
  rwa [← toList_newToOld, toList_of_ofOrder h, (toOld_of_ofOrder h).1] at hperm

/-! ## Places with a marker -/

/-- Stands for the place of an id that has none yet. -/
def unset : Vertex := Vertex.largest

/-- Gives the ids of a list of length `count` the places from `position` on, where a free place
holds the marker. -/
def assignMarked (count : Nat) (places : Table Vertex) (position : Nat) :
    List Vertex → Except Error (Table Vertex)
  | [] => .ok places
  | id :: rest =>
      if count ≤ id then
        .error (.rejected (.notAPermutation count (.outOfRange id)))
      else do
        let found ← (places.get id).mapError .fault
        if found = unset then
          let place ← (Vertex.ofIndex position).mapError .fault
          let places ← (places.put id place).mapError .fault
          assignMarked count places (position + 1) rest
        else
          throw (.rejected (.notAPermutation count (.repeated id)))

/-- The places of the ids of an order, kept with the marker. -/
def markedPlaces (order : List Vertex) : Except Error (Table Vertex) :=
  assignMarked order.length (.filled order.length unset) 0 order

/-- The table in which the marker stands for a free place. -/
def marked (places : Array (Option Vertex)) : Table Vertex := ⟨places.map (·.getD unset)⟩

theorem get_marked (hlt : id < places.size) :
    (marked places).get id = .ok (places[id].getD unset) := by
  rw [Table.get_eq_ok_iff]
  show (places.map (·.getD unset))[id]? = _
  rw [Array.getElem?_map, Array.getElem?_eq_getElem hlt, Option.map_some]

theorem put_marked (hlt : id < places.size) (position : Nat) :
    (marked places).put id position = .ok (marked (places.set id (some position))) := by
  have hsize : id < (marked places).size := by
    show id < (places.map (·.getD unset)).size
    rwa [Array.size_map]
  rw [Table.put_of_lt hsize]
  simp [marked]

-- No position that is given is the marker, so a place holds the marker just if it is free.
theorem assignMarked_eq (hplaces : ∀ {id place : Nat}, places[id]? = some (some place) →
    place < unset) (position : Nat) (hposition : position + ids.length ≤ unset) :
    assignMarked places.size (marked places) position ids =
      ((assign places position ids).map marked).mapError fun d =>
        .rejected (.notAPermutation places.size d) := by
  induction ids generalizing places position with
  | nil => rfl
  | cons id rest ih =>
    rw [List.length_cons] at hposition
    rw [assignMarked, assign]
    by_cases hlt : id < places.size
    · have hlarge : position < unset := by omega
      rw [dif_pos hlt, if_neg (Nat.not_le.mpr hlt), mapError_eq_ok_iff.mpr (get_marked hlt),
        ok_bind]
      cases hentry : places[id] with
      | none =>
        have hset : ∀ {other place : Nat},
            (places.set id (some position))[other]? = some (some place) → place < unset := by
          intro other place hother
          rw [Array.getElem?_set] at hother
          split at hother
          · cases hother
            exact hlarge
          · exact hplaces hother
        have hindex : Vertex.ofIndex position = .ok position := if_pos (Nat.le_of_lt hlarge)
        have hrest := ih hset (position + 1) (by omega)
        rw [Array.size_set] at hrest
        rw [Option.getD_none, if_pos rfl, mapError_eq_ok_iff.mpr hindex, ok_bind,
          mapError_eq_ok_iff.mpr (put_marked hlt position), ok_bind, if_neg (by decide)]
        exact hrest
      | some place =>
        have hplace : place < unset :=
          hplaces ((Array.getElem?_eq_getElem hlt).trans (congrArg some hentry))
        rw [Option.getD_some, if_neg (Nat.ne_of_lt hplace)]
        rfl
    · rw [dif_neg hlt, if_pos (Nat.not_lt.mp hlt)]
      rfl

-- The marker is lost once all places are given.
theorem markedPlaces_eq (h : order.length ≤ unset) :
    markedPlaces order = ((ofOrder order).map (·.oldToNew)).mapError .rejected := by
  have hsize : (Array.replicate order.length (none : Option Vertex)).size = order.length :=
    Array.size_replicate
  have hnone : ∀ {id place : Nat},
      (Array.replicate order.length (none : Option Vertex))[id]? = some (some place) →
        place < unset := by
    intro id place hentry
    rw [Array.getElem?_replicate] at hentry
    split at hentry <;> cases hentry
  have hmarked : Table.filled order.length unset = marked (Array.replicate order.length none) := by
    simp [marked, Table.filled]
  have heq : assignMarked _ _ 0 order = _ := assignMarked_eq hnone 0 (by omega)
  rw [hsize] at heq
  rw [markedPlaces, hmarked, heq]
  rcases ofOrder_cases order with ⟨after, p, hafter, hp, hplaces⟩ | ⟨d, hd, herror⟩
  · rw [hafter, hp]
    show Except.ok (marked after) = .ok p.oldToNew
    rw [hplaces, marked]
    congr 2
    apply Array.ext
    · simp
    · intro id hid _
      rw [Array.size_map] at hid
      rw [Array.getElem_map, Array.getElem_map]
      have hfree := (assigned_of_assign hafter).isSome rfl (Array.getElem?_eq_getElem hid)
      obtain ⟨place, hplace⟩ := Option.ne_none_iff_exists'.mp hfree
      rw [hplace, Option.getD_some, Option.getD_some]
  · rw [hd, herror]
    rfl

/-! ## Verdicts -/

/-- A list is taken as an order just if it names every id below its length once, and then it is the
order of the renumbering, whose other table has the place of each id.  Any other list is refused for
its first defect.  A table with a marker for free places leads to the same verdicts and places as
long as every place is below the marker. -/
theorem ofOrder_accepts_or_blames (order : List Vertex) :
    ((∃ p, ofOrder order = .ok p) ↔ ∀ v, v < order.length → order.count v = 1) ∧
    (∀ p, ofOrder order = .ok p → p.newToOld.toList = order ∧ p.oldToNew.size = order.length ∧
      ∀ i j : Nat, p.oldToNew[j]? = some i ↔ order[i]? = some j) ∧
    (∀ cause, ofOrder order = .error cause ↔
      ∃ i d, FirstDefect order i d ∧ cause = .notAPermutation order.length d) ∧
    (∀ id, (OrderDefect.outOfRange id).message = s!"{id} is out of range" ∧
      (OrderDefect.repeated id).message = s!"{id} appears twice") ∧
    (order.length < 4294967296 →
      markedPlaces order = ((ofOrder order).map (·.oldToNew)).mapError .rejected) := by
  refine ⟨?_, fun p hp => ?_, fun cause => ofOrder_eq_error_iff, fun id => ⟨rfl, rfl⟩,
    fun hlength => markedPlaces_eq (Nat.le_of_lt_succ hlength)⟩
  · rw [← perm_all_iff_count]
    constructor
    · rintro ⟨p, hp⟩
      exact perm_of_ofOrder hp
    · exact exists_ofOrder
  · have horder := toList_of_ofOrder hp
    have hentry : ∀ i : Nat, order[i]? = p.newToOld.cells[i]? := fun i => by
      rw [← horder]
      exact Array.getElem?_toList
    refine ⟨horder, p.size_oldToNew.trans (toOld_of_ofOrder hp).1, fun i j => ?_⟩
    rw [hentry]
    exact ⟨p.newToOld_of_oldToNew, p.oldToNew_of_newToOld⟩

/-- The repeated entry comes before the one that is out of range. -/
theorem ofOrder_accepts_or_blames_of_two_defects :
    (∃ p, ofOrder [2, 0, 1] = .ok p ∧ p.newToOld.toList = [2, 0, 1] ∧ p.oldToNew[2]? = some 0) ∧
      ofOrder [1, 1, 7] = .error (.notAPermutation 3 (.repeated 1)) ∧
      markedPlaces [1, 1, 7] = .error (.rejected (.notAPermutation 3 (.repeated 1))) := by
  obtain ⟨haccept, hplaces, -⟩ := ofOrder_accepts_or_blames [2, 0, 1]
  obtain ⟨-, -, hblame, -, hmarked⟩ := ofOrder_accepts_or_blames [1, 1, 7]
  obtain ⟨p, hp⟩ := haccept.mpr (by decide)
  obtain ⟨horder, -, hplace⟩ := hplaces p hp
  have hsound : ∀ k < 1, ∀ d, ¬ HasDefect [1, 1, 7] k d := by
    intro k hk d hd
    obtain rfl : k = 0 := by omega
    cases hd with
    | outOfRange hid hle =>
      cases hid
      exact absurd hle (by decide)
    | repeated hid hmem =>
      cases hid
      exact absurd hmem (by decide)
  have herror := (hblame _).mpr ⟨1, _, ⟨.repeated rfl (by decide), hsound⟩, rfl⟩
  refine ⟨⟨p, hp, horder, (hplace 0 2).mpr rfl⟩, herror, ?_⟩
  rw [hmarked (by decide), herror]
  rfl

end Renumbering

end LocalityOrder
