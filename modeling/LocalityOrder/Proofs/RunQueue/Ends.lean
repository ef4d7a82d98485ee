import LocalityOrder.RunTable
import LocalityOrder.Proofs.Checked
import LocalityOrder.Proofs.RankedList.Descends

/-!
# The ends of runs

The run of a key is the list of the elements with that key, in the order of the chain, and the run
table holds the ends of each run (`RunTable.Marks`).  An element that comes last in its run is
appended, and an element that leaves its run leaves the ends of the others.
-/

namespace LocalityOrder

/-- The first and the last element of a list. -/
def Run.ends : List Vertex → Option Run
  | [] => none
  | v :: rest => some ⟨v, rest.getLastD v⟩

namespace Run

-- around one element of a list, its ends are those of what lies in front of it and behind it
theorem ends_append_cons (l₁ l₂ : List Vertex) (v : Vertex) :
    ends (l₁ ++ v :: l₂) = some ⟨l₁.head?.getD v, l₂.getLast?.getD v⟩ := by
  cases l₁ with
  | nil => rw [List.nil_append, ends, List.getLastD_eq_getLast?]; rfl
  | cons u rest => simp [ends, List.getLastD_eq_getLast?, List.getLast?_append, List.getLast?_cons]

theorem ends_concat (l : List Vertex) (v : Vertex) :
    ends (l ++ [v]) = some ⟨l.head?.getD v, v⟩ := ends_append_cons l [] v

theorem ends_eq_none_iff {l : List Vertex} : ends l = none ↔ l = [] := by
  cases l <;> simp [ends]

theorem first_of_ends {l : List Vertex} {run : Run} (h : ends l = some run) :
    l.head? = some run.first := by
  cases l with
  | nil => cases h
  | cons v rest =>
    cases h
    rfl

theorem last_of_ends {l : List Vertex} {run : Run} (h : ends l = some run) :
    l.getLast? = some run.last := by
  cases l with
  | nil => cases h
  | cons v rest =>
    cases h
    rw [List.getLast?_cons, List.getLastD_eq_getLast?]

theorem ends_eq_some_iff {l : List Vertex} {run : Run} :
    ends l = some run ↔ l.head? = some run.first ∧ l.getLast? = some run.last := by
  constructor
  · intro h
    exact ⟨first_of_ends h, last_of_ends h⟩
  · rintro ⟨hfirst, hlast⟩
    cases hends : ends l with
    | none =>
      rw [ends_eq_none_iff] at hends
      simp [hends] at hfirst
    | some run' =>
      rw [first_of_ends hends, Option.some_inj] at hfirst
      rw [last_of_ends hends, Option.some_inj] at hlast
      cases run'
      cases run
      simp_all

end Run

namespace RunTable

/-- The table holds the ends of the run of each key. -/
def Marks (runs : RunTable) (order : List Vertex) (keyOf : Vertex → Nat) : Prop :=
  ∀ key : Nat, (runs[key]?).join = Run.ends (order.filter fun v => keyOf v = key)

variable {runs : RunTable} {key : Nat} {l l₁ l₂ : List Vertex} {v : Vertex}

theorem lt_size_of_join {run : Run} (h : (runs[key]?).join = some run) : key < runs.size := by
  obtain ⟨entry, hentry, -⟩ := Option.bind_eq_some_iff.mp h
  exact (Array.getElem?_eq_some_iff.mp hentry).1

theorem get_eq_of_join (h : key < runs.size) : runs.get key = .ok (runs[key]?).join := by
  rw [Table.get_eq_ok_iff]
  obtain ⟨entry, hentry⟩ : ∃ entry, runs[key]? = some entry :=
    ⟨_, Array.getElem?_eq_getElem h⟩
  rw [hentry]
  rfl

theorem run_eq_ok {run : Run} (h : (runs[key]?).join = some run) : runs.run key = .ok run := by
  unfold RunTable.run
  rw [get_eq_of_join (lt_size_of_join h), h, ok_bind]
  rfl

theorem exists_put (h : key < runs.size) (entry : Option Run) :
    ∃ runs', Table.put runs key entry = .ok runs' ∧ runs'.size = runs.size ∧
      ∀ other, (runs'[other]?).join = if other = key then entry else (runs[other]?).join := by
  obtain ⟨runs', hput, hsize, hget⟩ := Table.exists_put h entry
  refine ⟨runs', hput, hsize, fun other => ?_⟩
  rw [hget]
  by_cases heq : key = other
  · rw [if_pos heq, if_pos heq.symm, Option.join_some]
  · rw [if_neg heq, if_neg (Ne.symm heq)]

-- An element put at the end of a run is its last one.
theorem exists_append (h : (runs[key]?).join = Run.ends l) (hlt : key < runs.size) (v : Vertex) :
    ∃ runs', runs.append key v = .ok runs' ∧ runs'.size = runs.size ∧
      ∀ other, (runs'[other]?).join =
        if other = key then Run.ends (l ++ [v]) else (runs[other]?).join := by
  obtain ⟨runs', hput, hsize, hget⟩ := exists_put hlt (Run.ends (l ++ [v]))
  refine ⟨runs', ?_, hsize, hget⟩
  unfold append
  rw [get_eq_of_join hlt, h, ok_bind]
  rw [Run.ends_concat] at hput
  cases l with
  | nil => exact hput
  | cons u rest => exact hput

-- An element that leaves its run leaves the ends of the others.  Where the others need it, the
-- link of the element has to name its neighbors in the run.
theorem exists_leave {link : Link} (h : (runs[key]?).join = Run.ends (l₁ ++ v :: l₂))
    (hnodup : (l₁ ++ v :: l₂).Nodup)
    (hbefore : ∀ w, l₁.getLast? = some w → link.before = some w)
    (hafter : ∀ w, l₂.head? = some w → link.after = some w) :
    ∃ runs', runs.leave key v link = .ok runs' ∧ runs'.size = runs.size ∧
      ∀ other, (runs'[other]?).join =
        if other = key then Run.ends (l₁ ++ l₂) else (runs[other]?).join := by
  obtain ⟨hv, hnodup'⟩ := List.nodup_cons.mp (List.nodup_middle.mp hnodup)
  rw [List.mem_append, not_or] at hv
  rw [Run.ends_append_cons] at h
  obtain ⟨runs', hput, hsize, hget⟩ := exists_put (lt_size_of_join h) (Run.ends (l₁ ++ l₂))
  unfold leave
  rw [run_eq_ok h, ok_bind]
  dsimp only
  -- which branch is taken depends on whether there are others in front of `v` and behind it
  cases hfirst : l₁.head? with
  | none =>
    obtain rfl := List.head?_eq_none_iff.mp hfirst
    cases l₂ with
    | nil =>
      rw [List.getLast?_nil, Option.getD_none, if_pos rfl]
      exact ⟨runs', hput, hsize, hget⟩
    | cons w rest =>
      rw [List.getLast?_cons, Option.getD_none, Option.getD_some]
      have hlast : rest.getLast?.getD w ∈ w :: rest := by
        apply List.mem_of_getLast?
        rw [List.getLast?_cons]
      have hne : v ≠ rest.getLast?.getD w := fun heq => hv.2 (heq ▸ hlast)
      rw [List.nil_append, ← List.nil_append (w :: rest), Run.ends_append_cons] at hput
      rw [if_neg hne, if_pos rfl, hafter w rfl]
      exact ⟨runs', hput, hsize, hget⟩
  | some a =>
    have ha : a ∈ l₁ := List.mem_of_head? hfirst
    have hav : a ≠ v := fun heq => hv.1 (heq ▸ ha)
    rw [Option.getD_some]
    cases hlast : l₂.getLast? with
    | none =>
      obtain rfl := List.getLast?_eq_none_iff.mp hlast
      rw [Option.getD_none, if_neg hav, if_neg hav, if_pos rfl]
      rcases List.eq_nil_or_concat l₁ with rfl | ⟨front, b, rfl⟩
      · cases hfirst
      · rw [List.concat_eq_append] at *
        have hends : Run.ends (front ++ [b] ++ []) = some ⟨a, b⟩ := by
          apply Run.ends_eq_some_iff.mpr
          rw [List.append_nil]
          exact ⟨hfirst, List.getLast?_concat⟩
        rw [hends] at hput
        rw [hbefore b List.getLast?_concat]
        exact ⟨runs', hput, hsize, hget⟩
    | some z =>
      have hz : z ∈ l₂ := List.mem_of_getLast? hlast
      have hzv : z ≠ v := fun heq => hv.2 (heq ▸ hz)
      have haz : a ≠ z := (List.nodup_append.mp hnodup').2.2 a ha z hz
      have hends : Run.ends (l₁ ++ l₂) = some ⟨a, z⟩ := by
        apply Run.ends_eq_some_iff.mpr
        rw [List.head?_append, List.getLast?_append, hfirst, hlast]
        exact ⟨rfl, rfl⟩
      rw [Option.getD_some, if_neg haz, if_neg hav, if_neg hzv]
      refine ⟨runs, rfl, rfl, fun other => ?_⟩
      by_cases hother : other = key
      · rw [if_pos hother, hends, hother, h, hfirst, hlast]
        rfl
      · rw [if_neg hother]

-- A table with more room holds the same runs.
theorem join_reserve (runs : RunTable) (key other : Nat) :
    ((runs.reserve key)[other]?).join = (runs[other]?).join := by
  unfold reserve
  split
  next => rfl
  next =>
    simp only [Table.growTo, Table.getElem?_eq, Array.getElem?_append]
    split
    next => rfl
    next hle =>
      rw [Array.getElem?_eq_none (Nat.not_lt.mp hle), Array.getElem?_replicate]
      split <;> rfl

theorem lt_size_reserve (runs : RunTable) (key : Nat) : key < (runs.reserve key).size := by
  unfold reserve
  split
  next h =>
    unfold headroom at h
    omega
  next h =>
    simp only [Table.growTo, Table.size, Array.size_append, Array.size_replicate, headroom]
    omega

/-! ## The runs of a sorted list -/

namespace Marks

variable {keyOf keyOf' : Vertex → Nat} {order : List Vertex}

theorem lt_size (h : runs.Marks order keyOf) (hv : v ∈ order) : keyOf v < runs.size := by
  have hmem : v ∈ order.filter fun w => keyOf w = keyOf v := List.mem_filter.mpr ⟨hv, by simp⟩
  cases hends : Run.ends (order.filter fun w => keyOf w = keyOf v) with
  | none =>
    rw [Run.ends_eq_none_iff.mp hends] at hmem
    cases hmem
  | some run => exact lt_size_of_join ((h (keyOf v)).trans hends)

-- An element of the list has a run.
theorem exists_run (h : runs.Marks order keyOf) (hv : v ∈ order) :
    ∃ run, runs.run (keyOf v) = .ok run ∧
      Run.ends (order.filter fun w => keyOf w = keyOf v) = some run := by
  have hmem : v ∈ order.filter fun w => keyOf w = keyOf v := List.mem_filter.mpr ⟨hv, by simp⟩
  cases hends : Run.ends (order.filter fun w => keyOf w = keyOf v) with
  | none =>
    rw [Run.ends_eq_none_iff.mp hends] at hmem
    cases hmem
  | some run => exact ⟨run, run_eq_ok ((h (keyOf v)).trans hends), rfl⟩

theorem reserve (h : runs.Marks order keyOf) (key : Nat) :
    (runs.reserve key).Marks order keyOf := fun other => by
  rw [join_reserve, h other]

-- The runs of a list without one of its elements.
theorem exists_leave (h : runs.Marks (l₁ ++ v :: l₂) keyOf)
    (hdescends : Descends keyOf (l₁ ++ v :: l₂)) (hnodup : (l₁ ++ v :: l₂).Nodup) :
    ∃ runs', runs.leave (keyOf v) v ⟨l₁.getLast?, l₂.head?⟩ = .ok runs' ∧
      runs'.size = runs.size ∧ runs'.Marks (l₁ ++ l₂) keyOf := by
  have hrun := h (keyOf v)
  rw [List.filter_append, List.filter_cons_of_pos (by simp)] at hrun
  have hnodup' := hnodup.filter (fun w => decide (keyOf w = keyOf v))
  rw [List.filter_append, List.filter_cons_of_pos (by simp)] at hnodup'
  let link : Link := ⟨l₁.getLast?, l₂.head?⟩
  have hbefore : ∀ w, (l₁.filter fun u => keyOf u = keyOf v).getLast? = some w →
      link.before = some w := fun w hw => hdescends.getLast?_eq_of_filter hw
  have hafter : ∀ w, (l₂.filter fun u => keyOf u = keyOf v).head? = some w →
      link.after = some w := fun w hw => hdescends.head?_eq_of_filter hw
  obtain ⟨runs', hleave, hsize, hget⟩ := RunTable.exists_leave hrun hnodup' hbefore hafter
  refine ⟨runs', hleave, hsize, fun key => ?_⟩
  rw [hget]
  by_cases hkey : key = keyOf v
  · rw [if_pos hkey, hkey, List.filter_append]
  · rw [if_neg hkey, h key, List.filter_append, List.filter_append,
      List.filter_cons_of_neg (by simpa using Ne.symm hkey)]

-- The runs of a list with an element inserted by its key.
theorem exists_append {key : Nat} (h : runs.Marks order keyOf) (hdescends : Descends keyOf order)
    (heq : ∀ w ∈ order, keyOf' w = keyOf w) (hv : keyOf' v = key) (hlt : key < runs.size) :
    ∃ runs', runs.append key v = .ok runs' ∧ runs'.size = runs.size ∧
      runs'.Marks (insertByKey keyOf key v order) keyOf' := by
  obtain ⟨runs', happend, hsize, hget⟩ := RunTable.exists_append (h key) hlt v
  refine ⟨runs', happend, hsize, fun other => ?_⟩
  rw [hget, hdescends.filter_insertByKey heq hv]
  by_cases hother : other = key
  · rw [if_pos hother, if_pos hother]
  · rw [if_neg hother, if_neg hother, h other]

-- The runs of a list that is read from its start to its end.
theorem exists_foldlM {rest : List Vertex} {keys : Table Nat} (h : runs.Marks order keyOf)
    (hkeys : ∀ v ∈ rest, keys.get v = .ok (keyOf v) ∧ keyOf v < runs.size) :
    ∃ runs', rest.foldlM (fun (runs : RunTable) v => do runs.append (← keys.get v) v) runs =
      .ok runs' ∧ runs'.Marks (order ++ rest) keyOf := by
  induction rest generalizing runs order with
  | nil => exact ⟨runs, rfl, by rwa [List.append_nil]⟩
  | cons v rest ih =>
    obtain ⟨hget, hlt⟩ := hkeys v List.mem_cons_self
    obtain ⟨runs₁, happend, hsize, hjoin⟩ := RunTable.exists_append (h (keyOf v)) hlt v
    have hmarks : runs₁.Marks (order ++ [v]) keyOf := fun key => by
      rw [hjoin, List.filter_append]
      by_cases hkey : key = keyOf v
      · rw [if_pos hkey, hkey, List.filter_cons_of_pos (by simp), List.filter_nil]
      · rw [if_neg hkey, h key, List.filter_cons_of_neg (by simpa using Ne.symm hkey),
          List.filter_nil, List.append_nil]
    obtain ⟨runs', hfold, hmarks'⟩ := ih hmarks fun w hw => by
      rw [hsize]
      exact hkeys w (List.mem_cons_of_mem v hw)
    refine ⟨runs', ?_, ?_⟩
    · rw [List.foldlM_cons, hget, ok_bind, happend, ok_bind]
      exact hfold
    · rwa [List.append_assoc, List.singleton_append] at hmarks'

theorem filled (size : Nat) : RunTable.Marks (.filled size none) [] keyOf := fun other => by
  simp only [Table.filled, Table.getElem?_eq, Array.getElem?_replicate]
  split <;> rfl

end Marks

theorem size_forIds_pos (size : Nat) : 0 < (forIds size).size := by
  rw [forIds, Table.size_filled]
  exact Nat.lt_of_lt_of_le (by decide) (Nat.le_max_left headroom (size / 16))

theorem lt_size_forKeys {key largest : Nat} (h : key ≤ largest) (size : Nat) :
    key < (forKeys largest size).size := by
  rw [forKeys, Table.size_filled]
  omega

end RunTable

end LocalityOrder
