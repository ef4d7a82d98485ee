import LocalityOrder.Error
import Std.Data.TreeMap

/-!
# Labels

The labels of the vertices of a graph, numbered in the order in which they are first seen.  The
index finds the number of a label, and it always agrees with the array of names; in particular no
label has two numbers.  The number is the id of a vertex, so it has to have a name: a new label that
comes after `2 ^ 32` others is a fault.
-/

namespace LocalityOrder

/-- Labels numbered from zero on. -/
structure Labels where
  names : Array String
  index : Std.TreeMap String Vertex
  index_eq_some_iff : ∀ (name : String) (v : Vertex),
    index[name]? = some v ↔ names[v]? = some name

namespace Labels

def empty : Labels where
  names := #[]
  index := {}
  index_eq_some_iff := by simp

def size (l : Labels) : Nat := l.names.size

-- The number of a label.
def find? (l : Labels) (name : String) : Option Vertex := l.index[name]?

theorem find?_eq_some_iff {l : Labels} {name : String} {v : Vertex} :
    l.find? name = some v ↔ l.names[v]? = some name := l.index_eq_some_iff name v

-- With a new label at the end of the names and in the index, the two still agree.
theorem getElem?_insert_iff {l : Labels} {name : String} (fresh : l.find? name = none)
    (other : String) (v : Vertex) :
    (l.index.insert name l.names.size)[other]? = some v ↔
      (l.names.push name)[v]? = some other := by
  simp only [Std.TreeMap.getElem?_insert, Array.getElem?_push,
    Std.LawfulEqCmp.compare_eq_iff_eq]
  by_cases hname : name = other
  · subst hname
    by_cases hv : v = l.names.size
    · simp [hv]
    · have hnone : l.names[v]? ≠ some name := fun h => by
        rw [← l.index_eq_some_iff] at h
        exact nomatch h.symm.trans fresh
      simp [hv, hnone, Ne.symm hv]
  · by_cases hv : v = l.names.size
    · have : l.index[other]? ≠ some l.names.size := fun h => by
        rw [l.index_eq_some_iff] at h
        simp at h
      simp [hname, hv, this]
    · simp [hname, hv, l.index_eq_some_iff]

-- Gives the next number to a label that has none.
def push (l : Labels) (name : String) (fresh : l.find? name = none) : Labels :=
  have agree := getElem?_insert_iff fresh
  let { names, index, .. } := l
  let v := names.size
  ⟨names.push name, index.insert name v, agree⟩

-- Sees a label: its number, and the labels in which it has that number.
def see (l : Labels) (name : String) : Except Fault (Vertex × Labels) :=
  match h : l.find? name with
  | some v => .ok (v, l)
  | none => do
    let v ← Vertex.ofIndex l.size
    return (v, l.push name h)

end Labels

end LocalityOrder
