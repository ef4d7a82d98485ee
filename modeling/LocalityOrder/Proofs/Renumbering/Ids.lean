import LocalityOrder.Proofs.Checked
import LocalityOrder.Proofs.Renumbering
import Mathlib.Logic.Function.Basic

/-!
# Renumberings as maps of ids

The two tables of a renumbering, read as maps that leave every other number where it is, undo each
other.  A renumbering is determined by its size and either map, and the maps of a composition are
the compositions of the maps.
-/

namespace LocalityOrder

namespace Renumbering

/-- The new id of an old one. -/
def toNew (p : Renumbering) (old : Vertex) : Vertex := p.oldToNew[old]?.getD old

/-- The old id of a new one. -/
def toOld (p : Renumbering) (new : Vertex) : Vertex := p.newToOld[new]?.getD new

variable {p q r : Renumbering} {n v w : Nat}

theorem toOld_inverse (p : Renumbering) : p.inverse.toOld = p.toNew := rfl

theorem size_inverse (p : Renumbering) : p.inverse.size = p.size := p.size_oldToNew

@[simp] theorem size_identity (n : Nat) : (identity n).size = n := Array.size_range

theorem getElem?_newToOld_of_lt (h : v < p.size) : p.newToOld.cells[v]? = some (p.toOld v) := by
  have hv : p.newToOld[v]? = some p.newToOld.cells[v] := Array.getElem?_eq_getElem h
  rw [toOld, hv]
  exact hv

theorem getElem?_oldToNew_of_lt (h : v < p.size) : p.oldToNew.cells[v]? = some (p.toNew v) :=
  p.inverse.getElem?_newToOld_of_lt (p.size_inverse.symm ▸ h)

theorem toOld_of_le (h : p.size ≤ v) : p.toOld v = v := by
  have hv : p.newToOld[v]? = none := Array.getElem?_eq_none h
  rw [toOld, hv, Option.getD_none]

theorem toNew_of_le (h : p.size ≤ v) : p.toNew v = v :=
  p.inverse.toOld_of_le (p.size_inverse.symm ▸ h)

theorem toOld_lt (h : v < p.size) : p.toOld v < p.size := by
  have hv := p.oldToNew_of_newToOld (getElem?_newToOld_of_lt h)
  calc p.toOld v < p.oldToNew.cells.size := (Array.getElem?_eq_some_iff.mp hv).1
    _ = p.size := p.size_oldToNew

@[simp] theorem toNew_toOld (p : Renumbering) (v : Vertex) : p.toNew (p.toOld v) = v := by
  by_cases hv : v < p.size
  · have hold := p.oldToNew_of_newToOld (getElem?_newToOld_of_lt hv)
    exact Option.some.inj ((getElem?_oldToNew_of_lt (toOld_lt hv)).symm.trans hold)
  · rw [toOld_of_le (Nat.not_lt.mp hv), toNew_of_le (Nat.not_lt.mp hv)]

@[simp] theorem toOld_toNew (p : Renumbering) (v : Vertex) : p.toOld (p.toNew v) = v :=
  p.inverse.toNew_toOld v

theorem toOld_injective (p : Renumbering) : Function.Injective p.toOld :=
  Function.LeftInverse.injective p.toNew_toOld

theorem toNew_injective (p : Renumbering) : Function.Injective p.toNew :=
  Function.LeftInverse.injective p.toOld_toNew

theorem toNew_eq_iff : p.toNew v = w ↔ v = p.toOld w := by
  constructor
  · rintro rfl
    exact (p.toOld_toNew v).symm
  · rintro rfl
    exact p.toNew_toOld w

@[simp] theorem toOld_lt_iff : p.toOld v < p.size ↔ v < p.size := by
  refine ⟨fun h => ?_, toOld_lt⟩
  by_contra hv
  rw [toOld_of_le (Nat.not_lt.mp hv)] at h
  exact hv h

@[simp] theorem toNew_lt_iff : p.toNew v < p.size ↔ v < p.size := by
  rw [← p.size_inverse]
  exact p.inverse.toOld_lt_iff

/-! ## The tables -/

theorem newOf_of_lt (h : v < p.size) : p.newOf v = .ok (p.toNew v) := by
  rw [newOf, Table.get_eq_ok_iff]
  exact getElem?_oldToNew_of_lt h

theorem newOf_of_le (h : p.size ≤ v) : p.newOf v = .error .indexOutOfBounds := by
  rw [newOf, Table.get_eq_error_iff]
  refine ⟨?_, rfl⟩
  show p.oldToNew.cells.size ≤ v
  rwa [p.size_oldToNew]

theorem newOf_eq_ok_iff : p.newOf v = .ok w ↔ v < p.size ∧ p.toNew v = w := by
  by_cases h : v < p.size
  · rw [newOf_of_lt h]
    simp [h]
  · rw [newOf_of_le (Nat.not_lt.mp h)]
    simp [h]

theorem toList_newToOld (p : Renumbering) :
    p.newToOld.toList = (Vertex.all p.size).map p.toOld := by
  apply List.ext_getElem?
  intro v
  rw [List.getElem?_map]
  show p.newToOld.cells.toList[v]? = _
  rw [Array.getElem?_toList]
  by_cases hv : v < p.size
  · rw [getElem?_newToOld_of_lt hv, Vertex.all, List.getElem?_range hv]
    rfl
  · rw [Array.getElem?_eq_none (Nat.not_lt.mp hv), List.getElem?_eq_none]
    · rfl
    · rwa [Vertex.length_all, ← Nat.not_lt]

theorem toList_oldToNew (p : Renumbering) :
    p.oldToNew.toList = (Vertex.all p.size).map p.toNew := by
  rw [← p.size_inverse]
  exact p.inverse.toList_newToOld

-- Renumberings of one size that have the same old ids are the same.
theorem ext_toOld (hsize : p.size = q.size) (h : ∀ v, v < p.size → p.toOld v = q.toOld v) :
    p = q := by
  have hall : ∀ v, p.toOld v = q.toOld v := fun v => by
    by_cases hv : v < p.size
    · exact h v hv
    · rw [toOld_of_le (Nat.not_lt.mp hv), toOld_of_le (hsize ▸ Nat.not_lt.mp hv)]
  have hnew : ∀ v, p.toNew v = q.toNew v := fun v => by rw [toNew_eq_iff, hall, toOld_toNew]
  have htables : p.newToOld = q.newToOld ∧ p.oldToNew = q.oldToNew := by
    constructor
    · rw [← Table.ofList_toList p.newToOld, ← Table.ofList_toList q.newToOld, toList_newToOld,
        toList_newToOld, hsize, funext hall]
    · rw [← Table.ofList_toList p.oldToNew, ← Table.ofList_toList q.oldToNew, toList_oldToNew,
        toList_oldToNew, hsize, funext hnew]
  cases p
  cases q
  cases htables.1
  cases htables.2
  rfl

/-- The old ids of all new ones are all ids. -/
theorem map_toOld_perm (p : Renumbering) :
    ((Vertex.all p.size).map p.toOld).Perm (Vertex.all p.size) := by
  apply (List.perm_ext_iff_of_nodup ?_ List.nodup_range).mpr
  · intro v
    rw [List.mem_map, List.mem_range]
    constructor
    · rintro ⟨w, hw, rfl⟩
      exact toOld_lt (Vertex.mem_all.mp hw)
    · intro hv
      exact ⟨p.toNew v, Vertex.mem_all.mpr (toNew_lt_iff.mpr hv), p.toOld_toNew v⟩
  · exact List.nodup_range.map p.toOld_injective

/-! ## Identity and composition -/

theorem toOld_identity (n v : Nat) : (identity n).toOld v = v := by
  by_cases hv : v < n
  · show ((Array.range n)[v]?).getD v = v
    simp [hv]
  · exact toOld_of_le (by simpa using hv)

theorem toNew_identity (n v : Nat) : (identity n).toNew v = v := toOld_identity n v

theorem toOld_of_ofOrder {order : List Vertex} (h : ofOrder order = .ok p) :
    p.size = order.length ∧ ∀ v (hv : v < order.length), p.toOld v = order[v] := by
  have horder := toList_of_ofOrder h
  have hsize : p.size = order.length := horder ▸ rfl
  refine ⟨hsize, fun v hv => ?_⟩
  have hentry : p.newToOld.toList[v]? = order[v]? := by rw [horder]
  rw [toList_newToOld, List.getElem?_map, Vertex.all, List.getElem?_range (hsize ▸ hv),
    List.getElem?_eq_getElem hv] at hentry
  exact Option.some.inj hentry

/-- Values can be moved if there is one for each id, and then what is at a new id is what was at the
old one. -/
theorem apply_eq_ok_iff {α : Type} {values moved : Array α} :
    p.apply values = .ok moved ↔ values.size = p.size ∧ moved.size = p.size ∧
      ∀ v, v < p.size → moved[v]? = values[p.toOld v]? := by
  by_cases hsize : values.size = p.size
  · have hmoved : ∀ v (hv : v < p.size),
        (Array.ofFn fun new => values[(p.old new).val])[v]? = values[p.toOld v]? := fun v hv => by
      have hold : (p.old ⟨v, hv⟩).val = p.toOld v :=
        Option.some.inj ((p.getElem?_newToOld ⟨v, hv⟩).symm.trans (getElem?_newToOld_of_lt hv))
      rw [Array.getElem?_eq_getElem (by rwa [Array.size_ofFn]), Array.getElem_ofFn, ← hold,
        Array.getElem?_eq_getElem]
    rw [apply_of_size_eq hsize, Except.ok.injEq]
    constructor
    · rintro rfl
      exact ⟨hsize, Array.size_ofFn, hmoved⟩
    · rintro ⟨-, hsize', heq⟩
      apply Array.ext
      · rw [Array.size_ofFn, hsize']
      · intro v hv hv'
        rw [hsize'] at hv'
        apply Option.some.inj
        rw [← Array.getElem?_eq_getElem, ← Array.getElem?_eq_getElem, hmoved v hv', heq v hv']
  · rw [apply_of_size_ne hsize]
    simp [hsize]

theorem of_apply {α : Type} {values moved : Array α} (h : p.apply values = .ok moved) :
    values.size = p.size ∧ moved.size = p.size ∧
      ∀ v, v < p.size → moved[v]? = values[p.toOld v]? := apply_eq_ok_iff.mp h

theorem exists_apply {α : Type} {values : Array α} (h : values.size = p.size) :
    ∃ moved, p.apply values = .ok moved := ⟨_, apply_of_size_eq h⟩

theorem toList_of_apply {α : Type} {values moved : Array α} (h : p.apply values = .ok moved) :
    moved.toList = p.newToOld.toList.filterMap fun old => values[old]? := by
  obtain ⟨-, hsize, hentries⟩ := of_apply h
  have hmap : p.newToOld.toList.map (fun old => values[old]?) = moved.toList.map some := by
    apply List.ext_getElem?
    intro v
    have hmoved : moved.toList[v]? = moved[v]? := Array.getElem?_toList
    rw [toList_newToOld, List.map_map, List.getElem?_map, List.getElem?_map, hmoved]
    by_cases hv : v < p.size
    · rw [Vertex.all, List.getElem?_range hv, Option.map_some, Function.comp_apply, ← hentries v hv,
        Array.getElem?_eq_getElem (hsize.symm ▸ hv), Option.map_some]
    · rw [Array.getElem?_eq_none (by omega), List.getElem?_eq_none]
      · rfl
      · rwa [Vertex.length_all, ← Nat.not_lt]
  have hsome := congrArg (List.filterMap id) hmap
  rw [List.filterMap_map, List.filterMap_map] at hsome
  simpa using hsome.symm

theorem apply_identity {α : Type} (values : Array α) :
    (identity values.size).apply values = .ok values := by
  rw [apply_eq_ok_iff]
  refine ⟨by simp, by simp, fun v _ => ?_⟩
  rw [toOld_identity]

/-- Moved values are the same values in another order. -/
theorem perm_of_apply {α : Type} {values moved : Array α} (h : p.apply values = .ok moved) :
    moved.toList.Perm values.toList := by
  have hsize := (of_apply h).1
  have hfrom : ∀ old : Nat, (identity values.size).toOld old = old := toOld_identity values.size
  rw [toList_of_apply h, toList_of_apply (apply_identity values), toList_newToOld,
    toList_newToOld, size_identity, funext hfrom, List.map_id', hsize]
  exact p.map_toOld_perm.filterMap _

theorem idxOf_of_apply {α : Type} [BEq α] [LawfulBEq α] {values moved : Array α} {a : α}
    (h : p.apply values = .ok moved) (hnodup : values.toList.Nodup) (ha : values[v]? = some a) :
    moved.toList.idxOf a = p.toNew v := by
  obtain ⟨hsize, hsize', hentries⟩ := of_apply h
  have hv : v < p.size := hsize ▸ (Array.getElem?_eq_some_iff.mp ha).1
  have hnew : p.toNew v < moved.toList.length := by
    rw [Array.length_toList, hsize']
    exact toNew_lt_iff.mpr hv
  have hentry := hentries (p.toNew v) (toNew_lt_iff.mpr hv)
  rw [toOld_toNew, ha, ← Array.getElem?_toList, List.getElem?_eq_getElem hnew,
    Option.some.injEq] at hentry
  rw [← hentry]
  exact ((perm_of_apply h).nodup_iff.mpr hnodup).idxOf_getElem _ hnew

/-- One renumbering after another of the same size is again a renumbering of this size, which finds
the old id of a new one in two steps. -/
theorem exists_andThen (h : p.size = q.size) :
    ∃ r, p.andThen q = .ok r ∧ r.size = p.size ∧ ∀ v : Nat, r.toOld v = p.toOld (q.toOld v) := by
  obtain ⟨moved, hmoved⟩ : ∃ moved, q.apply p.newToOld.cells = .ok moved :=
    ⟨_, apply_of_size_eq h⟩
  obtain ⟨-, hsize, hentries⟩ := of_apply hmoved
  have horder : moved.toList = ((Vertex.all q.size).map q.toOld).map p.toOld := by
    apply List.ext_getElem?
    intro v
    rw [Array.getElem?_toList, List.getElem?_map, List.getElem?_map]
    by_cases hv : v < q.size
    · rw [hentries v hv, getElem?_newToOld_of_lt (h ▸ toOld_lt hv), Vertex.all,
        List.getElem?_range hv]
      rfl
    · rw [Array.getElem?_eq_none (by omega), List.getElem?_eq_none]
      · rfl
      · rwa [Vertex.length_all, ← Nat.not_lt]
  have hperm : moved.toList.Perm (Vertex.all p.size) := by
    rw [horder]
    apply (q.map_toOld_perm.map p.toOld).trans
    rw [← h]
    exact p.map_toOld_perm
  obtain ⟨r, hr⟩ := exists_ofOrder hperm
  obtain ⟨hlength, hold⟩ := toOld_of_ofOrder hr
  have hsize' : r.size = p.size := by rw [hlength, Array.length_toList, hsize, h]
  refine ⟨r, ?_, hsize', fun v => ?_⟩
  · rw [andThen, hmoved]
    show (ofOrder moved.toList).mapError Error.rejected = .ok r
    rw [hr]
    rfl
  · by_cases hv : v < p.size
    · rw [hold v (by omega)]
      simp only [horder, List.getElem_map, Vertex.all, List.getElem_range]
    · rw [toOld_of_le (by omega), toOld_of_le (p := q) (by omega), toOld_of_le (by omega)]

theorem toNew_of_toOld (h : ∀ v, r.toOld v = p.toOld (q.toOld v)) (v : Vertex) :
    r.toNew v = q.toNew (p.toNew v) := by
  rw [toNew_eq_iff, h, toOld_toNew, toOld_toNew]

end Renumbering

end LocalityOrder
