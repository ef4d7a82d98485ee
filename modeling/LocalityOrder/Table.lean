import LocalityOrder.Error

/-!
# Tables

A table holds one value for each id `0, …, size - 1`.  Reading or writing outside of these is a
fault.  The lemmas say what each operation does to the value at an id, `t[i]?`.
-/

namespace LocalityOrder

/-- One value for each id below `size`. -/
structure Table (α : Type u) where
  cells : Array α
deriving DecidableEq, Repr

namespace Table

variable {α : Type u} {β : Type v}

instance : GetElem? (Table α) Nat α (fun t i => i < t.cells.size) where
  getElem t i h := t.cells[i]
  getElem? t i := t.cells[i]?

def size (t : Table α) : Nat := t.cells.size

def isEmpty (t : Table α) : Bool := t.cells.isEmpty

def toList (t : Table α) : List α := t.cells.toList

def ofList (values : List α) : Table α := ⟨values.toArray⟩

/-- A table of the given size with the same value everywhere. -/
def filled (size : Nat) (value : α) : Table α := ⟨Array.replicate size value⟩

def map (f : α → β) (t : Table α) : Table β := ⟨t.cells.map f⟩

/-- The value at `i`. -/
def get (t : Table α) (i : Nat) : Except Fault α :=
  match t.cells[i]? with
  | some value => .ok value
  | none => .error .indexOutOfBounds

/-- The table with another value at `i`. -/
def put (t : Table α) (i : Nat) (value : α) : Except Fault (Table α) :=
  if h : i < t.cells.size then .ok ⟨t.cells.set i value h⟩ else .error .indexOutOfBounds

/-- The table with the value at `i` changed by `f`. -/
def modify (t : Table α) (i : Nat) (f : α → α) : Except Fault (Table α) :=
  if i < t.cells.size then .ok ⟨t.cells.modify i f⟩ else .error .indexOutOfBounds

/-- The values at the ids from `start` up to, and without, `stop`. -/
def slice (t : Table α) (start stop : Nat) : Except Fault (List α) :=
  if start ≤ stop ∧ stop ≤ t.cells.size then .ok (t.cells.extract start stop).toList
  else .error .indexOutOfBounds

/-- The table with room for at least `newSize` values, new ones being `value`. -/
def growTo (t : Table α) (newSize : Nat) (value : α) : Table α :=
  ⟨t.cells ++ Array.replicate (newSize - t.cells.size) value⟩

/-! ## What the operations do -/

@[ext] theorem ext {s t : Table α} (h : s.cells = t.cells) : s = t := by
  cases s; cases t; exact congrArg mk h

@[simp] theorem getElem?_eq (t : Table α) (i : Nat) : t[i]? = t.cells[i]? := rfl

@[simp] theorem toList_ofList (values : List α) : (ofList values).toList = values := rfl

@[simp] theorem ofList_toList (t : Table α) : ofList t.toList = t := rfl

@[simp] theorem size_ofList (values : List α) : (ofList values).size = values.length := rfl

@[simp] theorem length_toList (t : Table α) : t.toList.length = t.size := rfl

@[simp] theorem size_filled (size : Nat) (value : α) : (filled size value).size = size :=
  Array.size_replicate

theorem getElem?_filled (size : Nat) (value : α) (i : Nat) :
    (filled size value)[i]? = if i < size then some value else none := Array.getElem?_replicate

theorem get_eq_ok_iff {t : Table α} {i : Nat} {value : α} :
    t.get i = .ok value ↔ t[i]? = some value := by
  unfold get
  cases t.cells[i]? <;> simp

theorem get_eq_error_iff {t : Table α} {i : Nat} {fault : Fault} :
    t.get i = .error fault ↔ t.size ≤ i ∧ fault = .indexOutOfBounds := by
  unfold get size
  cases h : t.cells[i]? with
  | none => simp [Array.getElem?_eq_none_iff.mp h, eq_comm]
  | some value =>
    obtain ⟨hi, _⟩ := Array.getElem?_eq_some_iff.mp h
    simp [Nat.not_le.mpr hi]

theorem get_of_lt {t : Table α} {i : Nat} (h : i < t.size) (value : α) :
    t.get i = .ok (t[i]?.getD value) := by
  have hi : t[i]? = some t.cells[i] := Array.getElem?_eq_getElem h
  rw [get_eq_ok_iff, hi, Option.getD_some]

theorem put_of_lt {t : Table α} {i : Nat} (h : i < t.size) (value : α) :
    t.put i value = .ok ⟨t.cells.set i value h⟩ := dif_pos h

theorem size_of_put {s t : Table α} {i : Nat} {value : α} (h : s.put i value = .ok t) :
    t.size = s.size := by
  unfold put at h
  split at h
  · cases h; simp [size]
  · cases h

theorem getElem?_of_put {s t : Table α} {i : Nat} {value : α} (h : s.put i value = .ok t)
    (j : Nat) : t[j]? = if i = j then some value else s[j]? := by
  unfold put at h
  split at h
  · cases h
    simp only [getElem?_eq, Array.getElem?_set]
  · cases h

theorem getD_of_put {s t : Table α} {i : Nat} {value : α} (h : s.put i value = .ok t) (j : Nat)
    (other : α) : t[j]?.getD other = if i = j then value else s[j]?.getD other := by
  rw [getElem?_of_put h]
  split <;> rfl

/-- Writing inside a table changes the value at one place. -/
theorem exists_put {t : Table α} {i : Nat} (h : i < t.size) (value : α) :
    ∃ t', t.put i value = .ok t' ∧ t'.size = t.size ∧
      ∀ j : Nat, t'[j]? = if i = j then some value else t[j]? :=
  ⟨_, put_of_lt h value, size_of_put (put_of_lt h value), getElem?_of_put (put_of_lt h value)⟩

theorem modify_of_lt {t : Table α} {i : Nat} (h : i < t.size) (f : α → α) :
    t.modify i f = .ok ⟨t.cells.modify i f⟩ := if_pos h

theorem getElem?_of_modify {s t : Table α} {i : Nat} {f : α → α} (h : s.modify i f = .ok t)
    (j : Nat) : t[j]? = if i = j then s[j]?.map f else s[j]? := by
  unfold modify at h
  split at h
  · cases h
    simp only [getElem?_eq, Array.getElem?_modify]
  · cases h

end Table

end LocalityOrder
