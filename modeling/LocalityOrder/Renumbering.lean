import LocalityOrder.Table

/-!
# Renumberings

A renumbering moves every vertex of a graph to a new id.  It holds both directions, `newToOld`
and `oldToNew`, and the fact that each undoes the other, so nothing that is built from one has to
ask whether it really is a bijection.

`ofOrder` reads the order in which the old ids are to be stored.  It accepts exactly the orders
that name every id once, and otherwise names the first entry that does not fit.
-/

namespace LocalityOrder

/-- A bijection between old and new ids, as two tables that undo each other. -/
structure Renumbering where
  -- The old id of the vertex that is now at a place.
  newToOld : Table Vertex
  -- The place at which the vertex with an old id is now.
  oldToNew : Table Vertex
  size_oldToNew : oldToNew.cells.size = newToOld.cells.size
  oldToNew_of_newToOld : ∀ {new old : Vertex},
    newToOld.cells[new]? = some old → oldToNew.cells[old]? = some new
  newToOld_of_oldToNew : ∀ {old new : Vertex},
    oldToNew.cells[old]? = some new → newToOld.cells[new]? = some old
deriving DecidableEq

namespace Renumbering

-- The number of vertices.
def size (p : Renumbering) : Nat := p.newToOld.cells.size

def isEmpty (p : Renumbering) : Bool := p.newToOld.isEmpty

-- Where the vertex now at `new` used to be.
def oldOf (p : Renumbering) (new : Vertex) : Except Fault Vertex := p.newToOld.get new

-- Where the vertex that was at `old` is now.
def newOf (p : Renumbering) (old : Vertex) : Except Fault Vertex := p.oldToNew.get old

-- Every vertex stays where it is, whether all ids have names or not.
def identity (n : Nat) : Renumbering where
  newToOld := ⟨Array.range n⟩
  oldToNew := ⟨Array.range n⟩
  size_oldToNew := rfl
  oldToNew_of_newToOld h := by
    obtain ⟨hn, rfl⟩ := Array.getElem?_eq_some_iff.mp h
    simp_all
  newToOld_of_oldToNew h := by
    obtain ⟨hn, rfl⟩ := Array.getElem?_eq_some_iff.mp h
    simp_all

-- The renumbering that moves every vertex back.
def inverse (p : Renumbering) : Renumbering where
  newToOld := p.oldToNew
  oldToNew := p.newToOld
  size_oldToNew := p.size_oldToNew.symm
  oldToNew_of_newToOld := p.newToOld_of_oldToNew
  newToOld_of_oldToNew := p.oldToNew_of_newToOld

theorem getElem_newToOld_lt (p : Renumbering) {new : Nat} (h : new < p.newToOld.cells.size) :
    p.newToOld.cells[new] < p.size := by
  have hold := p.oldToNew_of_newToOld (Array.getElem?_eq_getElem h)
  have hlt := (Array.getElem?_eq_some_iff.mp hold).1
  rwa [p.size_oldToNew] at hlt

/-! ## Reading an order -/

/-- Gives the ids of a list the places from `position` on, in `places`, where an id that has no
place yet has `none`. -/
def assign (places : Array (Option Vertex)) (position : Nat) :
    List Vertex → Except OrderDefect (Array (Option Vertex))
  | [] => .ok places
  | id :: rest =>
      if h : id < places.size then
        if places[id].isSome then .error (.repeated id)
        else assign (places.set id (some position)) (position + 1) rest
      else .error (.outOfRange id)

/-- What is known of the places after a list of ids was given places. -/
structure Assigned (before after : Array (Option Vertex)) (position : Nat)
    (ids : List Vertex) : Prop where
  size_eq : after.size = before.size
  -- Each id took one free place.
  free_eq : after.count none + ids.length = before.count none
  -- Each id has its place.
  placed : ∀ {i id : Nat}, ids[i]? = some id → after[id]? = some (some (position + i))
  -- Every place was there before or is that of an id of the list.
  source : ∀ {id place : Nat}, after[id]? = some (some place) →
    before[id]? = some (some place) ∨ ∃ i, place = position + i ∧ ids[i]? = some id
  -- No place is taken back.
  kept : ∀ {id place : Nat}, before[id]? = some (some place) → after[id]? = some (some place)

theorem assigned_of_assign {before after : Array (Option Vertex)} {position : Nat}
    {ids : List Vertex} (h : assign before position ids = .ok after) :
    Assigned before after position ids := by
  induction ids generalizing before position with
  | nil =>
    cases h
    exact ⟨rfl, by simp, by simp, fun h => .inl h, id⟩
  | cons head rest ih =>
    rw [assign] at h
    split at h
    next hlt =>
      split at h
      next => cases h
      next hfree =>
        have hnone : before[head] = none := by simpa using hfree
        have step := ih h
        have hset : ∀ id : Nat, (before.set head (some position))[id]? =
            if head = id then some (some position) else before[id]? :=
          fun id => Array.getElem?_set ..
        have hpos : 0 < before.count none := by
          rw [Array.count_pos_iff]
          exact hnone ▸ Array.getElem_mem hlt
        refine ⟨by simpa using step.size_eq, ?_, ?_, ?_, ?_⟩
        · have := step.free_eq
          rw [Array.count_set, hnone] at this
          simp at this
          simp
          omega
        · intro i id hi
          cases i with
          | zero =>
            obtain rfl : head = id := by simpa using hi
            exact step.kept (by simp [hset])
          | succ i =>
            have hrest : rest[i]? = some id := by simpa using hi
            have := step.placed hrest
            rwa [Nat.add_assoc, Nat.add_comm 1] at this
        · intro id place hplace
          rcases step.source hplace with hold | ⟨i, rfl, hi⟩
          · rw [hset] at hold
            split at hold
            next heq =>
              cases hold
              exact .inr ⟨0, by simp, by simp [heq]⟩
            next => exact .inl hold
          · exact .inr ⟨i + 1, by omega, by simpa using hi⟩
        · intro id place hplace
          refine step.kept ?_
          rw [hset, if_neg]
          · exact hplace
          · rintro rfl
            rw [Array.getElem?_eq_getElem hlt, hnone] at hplace
            simp at hplace
    next => cases h

-- When as many ids as places were given places, no place is free.
theorem Assigned.isSome {size : Nat} {after : Array (Option Vertex)} {ids : List Vertex}
    (h : Assigned (Array.replicate size none) after 0 ids) (hlen : ids.length = size) {id : Nat}
    {entry : Option Vertex} (hentry : after[id]? = some entry) : entry ≠ none := by
  rintro rfl
  have hfree := h.free_eq
  rw [Array.count_replicate_self, hlen] at hfree
  have hmem : none ∈ after := Array.mem_of_getElem? hentry
  have := Array.count_pos_iff.mpr hmem
  omega

-- The renumbering that stores the vertices in the given order of their old ids.
def ofOrder (order : List Vertex) : Except Rejection Renumbering :=
  match h : assign (Array.replicate order.length none) 0 order with
  | .error defect => .error (.notAPermutation order.length defect)
  | .ok places => .ok {
      newToOld := .ofList order
      oldToNew := ⟨places.map (·.getD 0)⟩
      size_oldToNew := by
        simpa [Table.ofList] using (assigned_of_assign h).size_eq
      oldToNew_of_newToOld := by
        intro new old hnew
        have := (assigned_of_assign h).placed (by simpa [Table.ofList] using hnew)
        simp [this]
      newToOld_of_oldToNew := by
        intro old new hold
        have assigned := assigned_of_assign h
        simp only [Array.getElem?_map, Option.map_eq_some_iff] at hold
        obtain ⟨entry, hentry, hnew⟩ := hold
        cases entry with
        | none => exact absurd rfl (assigned.isSome rfl hentry)
        | some place =>
          obtain rfl : place = new := hnew
          rcases assigned.source hentry with hfalse | ⟨i, rfl, hi⟩
          · rw [Array.getElem?_replicate] at hfalse
            split at hfalse <;> simp at hfalse
          · simpa [Table.ofList] using hi }

/-! ## Moving values -/

-- Where the vertex now at `new` used to be, for a place that exists.
def old (p : Renumbering) (new : Fin p.size) : Fin p.size :=
  have h : new.val < p.newToOld.cells.size := new.isLt
  ⟨p.newToOld.cells[new.val], p.getElem_newToOld_lt h⟩

-- The values of the old ids, moved to the new ones.
def apply {α : Type u} (p : Renumbering) (values : Array α) : Except Fault (Array α) :=
  if h : values.size = p.size then
    .ok (Array.ofFn fun new => values[(p.old new).val])
  else
    .error (.sizeMismatch .values values.size p.size)

-- First `p`, then `q`.
def andThen (p q : Renumbering) : Except Error Renumbering := do
  let order ← (q.apply p.newToOld.cells).mapError .fault
  (ofOrder order.toList).mapError .rejected

theorem getElem?_newToOld (p : Renumbering) (new : Fin p.size) :
    p.newToOld.cells[new.val]? = some (p.old new).val :=
  Array.getElem?_eq_getElem new.isLt

theorem apply_of_size_eq {α : Type u} {p : Renumbering} {values : Array α}
    (h : values.size = p.size) :
    p.apply values = .ok (Array.ofFn fun new => values[(p.old new).val]) := dif_pos h

theorem apply_of_size_ne {α : Type u} {p : Renumbering} {values : Array α}
    (h : values.size ≠ p.size) :
    p.apply values = .error (.sizeMismatch .values values.size p.size) := dif_neg h

end Renumbering

end LocalityOrder
