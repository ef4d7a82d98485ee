import LocalityOrder.Error

/-!
# Scores

A score is a signed number of 32 bits.  Scores are held as exact integers and every operation on
them checks that its result is in range, so a sum that leaves the range is a fault and never a
wrong number.
-/

namespace LocalityOrder

/-- A score, held exactly. -/
abbrev Score := Int

namespace Score

/-- The range of scores. -/
def Fits (x : Int) : Prop := -2147483648 ≤ x ∧ x ≤ 2147483647

instance (x : Int) : Decidable (Fits x) := inferInstanceAs (Decidable (_ ∧ _))

/-- Accepts the numbers in range. -/
def checked (x : Int) : Except Fault Score :=
  if Fits x then .ok x else .error .overflow

def add (x y : Score) : Except Fault Score := checked (x + y)

def sub (x y : Score) : Except Fault Score := checked (x - y)

def neg (x : Score) : Except Fault Score := checked (-x)

/-- A count of edges as a score.  Counts are kept in 32 bits, and those from `2 ^ 31` on have the
pattern of a negative score. -/
def ofCount (count : Nat) : Score :=
  let pattern := count % 4294967296
  if pattern < 2147483648 then pattern else pattern - 4294967296

/-- The pending change of a vertex that has its place: so high that the changes still counted
against it never bring it near an ordinary score. -/
def placed : Score := 1073741823

theorem checked_eq_ok {x : Int} (h : Fits x) : checked x = .ok x := if_pos h

theorem checked_eq_ok_iff {x y : Int} : checked x = .ok y ↔ Fits x ∧ x = y := by
  unfold checked
  split <;> simp_all

theorem ofCount_of_lt {count : Nat} (h : count < 2147483648) : ofCount count = count := by
  have hmod : count % 4294967296 = count := Nat.mod_eq_of_lt (by omega)
  simp only [ofCount, hmod, if_pos h]

end Score

end LocalityOrder
