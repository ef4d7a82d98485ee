import LocalityOrder.Proofs.Renumbering.Ids
import Mathlib.Algebra.Group.End

/-!
# The group of renumberings

The old ids of the new ones are a permutation of all numbers, and composition and inverse of
renumberings are those of their permutations.  As a renumbering is determined by its size and its
permutation, the laws of groups hold of both its tables.  Values are moved by a composition as they
are moved by its parts, one after the other.
-/

namespace LocalityOrder

namespace Renumbering

variable {p q r s : Renumbering} {n : Nat}

/-- The old ids of the new ones, as a permutation of all numbers. -/
def toPerm (p : Renumbering) : Equiv.Perm Vertex where
  toFun := p.toOld
  invFun := p.toNew
  left_inv := p.toNew_toOld
  right_inv := p.toOld_toNew

theorem ext_toPerm (hsize : p.size = q.size) (h : p.toPerm = q.toPerm) : p = q := by
  apply ext_toOld hsize
  intro v _
  show p.toPerm v = q.toPerm v
  rw [h]

@[simp] theorem toPerm_identity (n : Nat) : (identity n).toPerm = 1 :=
  Equiv.ext (toOld_identity n)

@[simp] theorem toPerm_inverse (p : Renumbering) : p.inverse.toPerm = p.toPerm⁻¹ := rfl

/-! ## The laws -/

/-- A composition is the renumbering of the same size whose permutation is the product. -/
theorem andThen_eq_ok_iff :
    p.andThen q = .ok r ↔
      p.size = q.size ∧ r.size = p.size ∧ r.toPerm = p.toPerm * q.toPerm := by
  constructor
  · intro h
    obtain ⟨moved, hmoved, -⟩ := bind_eq_ok_iff.mp h
    have hsize : p.size = q.size := (of_apply (mapError_eq_ok_iff.mp hmoved)).1
    obtain ⟨r', hr', hsize', hold⟩ := exists_andThen hsize
    cases hr'.symm.trans h
    exact ⟨hsize, hsize', Equiv.ext hold⟩
  · rintro ⟨hsize, hsizer, hperm⟩
    obtain ⟨r', hr', hsize', hold⟩ := exists_andThen hsize
    have hperm' : r'.toPerm = p.toPerm * q.toPerm := Equiv.ext hold
    rw [hr', ext_toPerm (hsize'.trans hsizer.symm) (hperm'.trans hperm.symm)]

theorem identity_andThen (p : Renumbering) : (identity p.size).andThen p = .ok p := by
  rw [andThen_eq_ok_iff]
  simp

theorem andThen_identity (p : Renumbering) : p.andThen (identity p.size) = .ok p := by
  rw [andThen_eq_ok_iff]
  simp

theorem andThen_inverse (p : Renumbering) : p.andThen p.inverse = .ok (identity p.size) := by
  rw [andThen_eq_ok_iff]
  simp [size_inverse]

theorem inverse_andThen (p : Renumbering) : p.inverse.andThen p = .ok (identity p.size) := by
  rw [andThen_eq_ok_iff]
  simp [size_inverse]

theorem andThen_assoc {pq qs : Renumbering} (hpq : p.andThen q = .ok pq)
    (hqs : q.andThen s = .ok qs) : pq.andThen s = p.andThen qs := by
  rw [andThen_eq_ok_iff] at hpq hqs
  have hsize : pq.size = s.size := by omega
  obtain ⟨r, hr, -⟩ := exists_andThen hsize
  rw [hr, eq_comm]
  rw [andThen_eq_ok_iff] at hr ⊢
  refine ⟨by omega, by omega, ?_⟩
  rw [hr.2.2, hpq.2.2, hqs.2.2, mul_assoc]

theorem inverse_andThen_inverse (h : p.andThen q = .ok r) :
    q.inverse.andThen p.inverse = .ok r.inverse := by
  rw [andThen_eq_ok_iff] at h ⊢
  simp only [size_inverse, toPerm_inverse]
  refine ⟨by omega, by omega, ?_⟩
  rw [h.2.2, mul_inv_rev]

/-! ## Moving values -/

-- Values of another size are refused by the composition and by its first part alike.
theorem apply_andThen {α : Type} (h : p.andThen q = .ok r) (values : Array α) :
    r.apply values = p.apply values >>= q.apply := by
  obtain ⟨hsize, hsizer, hperm⟩ := andThen_eq_ok_iff.mp h
  by_cases hvalues : values.size = p.size
  · obtain ⟨once, honce⟩ := exists_apply hvalues
    obtain ⟨-, hsize₁, hentries₁⟩ := of_apply honce
    obtain ⟨twice, htwice⟩ := exists_apply (p := q) (hsize₁.trans hsize)
    obtain ⟨-, hsize₂, hentries₂⟩ := of_apply htwice
    rw [honce, ok_bind, htwice, apply_eq_ok_iff]
    refine ⟨by omega, by omega, fun v hv => ?_⟩
    have hold : r.toOld v = p.toOld (q.toOld v) := Equiv.ext_iff.mp hperm v
    have hq : v < q.size := by omega
    have hp : q.toOld v < p.size := hsize ▸ toOld_lt hq
    rw [hentries₂ v hq, hentries₁ _ hp, hold]
  · rw [apply_of_size_ne hvalues, apply_of_size_ne (hsizer ▸ hvalues), hsizer]
    rfl

theorem apply_inverse {α : Type} {values moved : Array α} (h : p.apply values = .ok moved) :
    p.inverse.apply moved = .ok values := by
  obtain ⟨hsize, -⟩ := of_apply h
  have hback := apply_andThen p.andThen_inverse values
  rwa [← hsize, apply_identity, h, ok_bind, eq_comm] at hback

/-! ## Expressions -/

-- A renumbering is what is read from its own order.
theorem ofOrder_newToOld (p : Renumbering) : ofOrder p.newToOld.toList = .ok p := by
  have hperm : p.newToOld.toList.Perm (Vertex.all p.size) := by
    rw [p.toList_newToOld]
    exact p.map_toOld_perm
  obtain ⟨p', hp'⟩ := exists_ofOrder hperm
  obtain ⟨hsize, hold⟩ := toOld_of_ofOrder hp'
  rw [hp', Except.ok.injEq]
  apply ext_toOld hsize
  intro v hv
  rw [hsize] at hv
  rw [hold v hv]
  simp only [toList_newToOld, List.getElem_map, Vertex.all, List.getElem_range]

/-- What can be written with renumberings of `n` vertices, inverses and compositions. -/
inductive Expression (n : Nat)
  | given (p : Renumbering) (size_eq : p.size = n)
  | inverse (e : Expression n)
  | andThen (e e' : Expression n)

namespace Expression

/-- Computes what is written, from the inside out. -/
def eval : Expression n → Except Error Renumbering
  | given p _ => .ok p
  | inverse e => do return (← e.eval).inverse
  | andThen e e' => do (← e.eval).andThen (← e'.eval)

/-- What is written, as a permutation. -/
def toPerm : Expression n → Equiv.Perm Vertex
  | given p _ => p.toPerm
  | inverse e => e.toPerm⁻¹
  | andThen e e' => e.toPerm * e'.toPerm

theorem exists_eval (e : Expression n) :
    ∃ r, e.eval = .ok r ∧ r.size = n ∧ r.toPerm = e.toPerm := by
  induction e with
  | given p size_eq => exact ⟨p, rfl, size_eq, rfl⟩
  | inverse e ih =>
    obtain ⟨p, hp, hsize, hperm⟩ := ih
    refine ⟨p.inverse, ?_, p.size_inverse.trans hsize, ?_⟩
    · rw [eval, hp, ok_bind, pure_eq_ok]
    · rw [toPerm_inverse, hperm, toPerm]
  | andThen e e' ih ih' =>
    obtain ⟨p, hp, hsize, hperm⟩ := ih
    obtain ⟨q, hq, hsize', hperm'⟩ := ih'
    obtain ⟨r, hr, -⟩ := exists_andThen (hsize.trans hsize'.symm)
    obtain ⟨-, hsizer, hpermr⟩ := andThen_eq_ok_iff.mp hr
    refine ⟨r, ?_, hsizer.trans hsize, ?_⟩
    · rw [eval, hp, hq, ok_bind, ok_bind, hr]
    · rw [hpermr, hperm, hperm', toPerm]

end Expression

/-! ## The group -/

/-- Renumberings of `n` vertices are a group that acts on values.  A composition always exists, it
is associative and moves values as its parts do one after the other, the identity is neutral, and
the inverse takes everything back, that of a composition in reverse order.  All these are equations
between renumberings, that is between both tables.  However inverses and compositions are nested,
what results is the renumbering that its own order gives, with tables that undo each other. -/
theorem group_laws (hp : p.size = n) (hq : q.size = n) (hs : s.size = n) :
    ∃ pq qs pqs, p.andThen q = .ok pq ∧ q.andThen s = .ok qs ∧
      pq.andThen s = .ok pqs ∧ p.andThen qs = .ok pqs ∧
      (identity n).andThen p = .ok p ∧ p.andThen (identity n) = .ok p ∧
      p.andThen p.inverse = .ok (identity n) ∧ p.inverse.andThen p = .ok (identity n) ∧
      q.inverse.andThen p.inverse = .ok pq.inverse ∧
      (∀ (α : Type) (values : Array α), values.size = n → ∃ once twice,
        p.apply values = .ok once ∧ q.apply once = .ok twice ∧ pq.apply values = .ok twice ∧
          p.inverse.apply once = .ok values) ∧
      ∀ e : Expression n, ∃ r, e.eval = .ok r ∧ r.toPerm = e.toPerm ∧
        r.newToOld.size = n ∧ r.oldToNew.size = n ∧
        (∀ new old : Vertex, r.newToOld[new]? = some old ↔ r.oldToNew[old]? = some new) ∧
        ofOrder r.newToOld.toList = .ok r := by
  subst hp
  obtain ⟨pq, hpq, hsize, -⟩ := exists_andThen hq.symm
  obtain ⟨qs, hqs, -⟩ := exists_andThen (hq.trans hs.symm)
  obtain ⟨pqs, hpqs, -⟩ := exists_andThen (hsize.trans hs.symm)
  refine ⟨pq, qs, pqs, hpq, hqs, hpqs, ?_, p.identity_andThen, p.andThen_identity,
    p.andThen_inverse, p.inverse_andThen, inverse_andThen_inverse hpq, fun α values hvalues => ?_,
    fun e => ?_⟩
  · rw [← andThen_assoc hpq hqs, hpqs]
  · obtain ⟨once, honce⟩ := exists_apply hvalues
    obtain ⟨twice, htwice⟩ : ∃ twice, pq.apply values = .ok twice :=
      exists_apply (hvalues.trans hsize.symm)
    have hparts := apply_andThen hpq values
    rw [honce, ok_bind, htwice] at hparts
    exact ⟨once, twice, honce, hparts.symm, htwice, apply_inverse honce⟩
  · obtain ⟨r, hr, hsizer, hperm⟩ := e.exists_eval
    exact ⟨r, hr, hperm, hsizer, r.size_oldToNew.trans hsizer,
      fun new old => ⟨r.oldToNew_of_newToOld, r.newToOld_of_oldToNew⟩, r.ofOrder_newToOld⟩

/-- A rotation and the exchange of two vertices do not commute. -/
theorem group_laws_of_rotation_and_exchange :
    ∃ p q pq twice, ofOrder [2, 0, 1] = .ok p ∧ ofOrder [1, 0, 2] = .ok q ∧ p.size = 3 ∧
      q.size = 3 ∧ p.andThen q = .ok pq ∧ q.andThen p ≠ .ok pq ∧
      q.inverse.andThen p.inverse = .ok pq.inverse ∧ p.andThen p.inverse = .ok (identity 3) ∧
      pq.apply #['a', 'b', 'c'] = .ok twice ∧ twice = #['a', 'c', 'b'] := by
  obtain ⟨x, hrun, hx⟩ := exists_eq_ok (f := id) (b := ([0, 2, 1], [2, 1, 0], #['a', 'c', 'b']))
    (x := (ofOrder [2, 0, 1]).mapError Error.rejected >>= fun p =>
      (ofOrder [1, 0, 2]).mapError Error.rejected >>= fun q =>
        p.andThen q >>= fun pq => q.andThen p >>= fun qp =>
          (pq.apply #['a', 'b', 'c']).mapError Error.fault >>= fun twice =>
            .ok (pq.newToOld.toList, qp.newToOld.toList, twice)) (by decide +kernel)
  cases hx
  obtain ⟨p, hp, h₁⟩ := bind_eq_ok_iff.mp hrun
  obtain ⟨q, hq, h₂⟩ := bind_eq_ok_iff.mp h₁
  obtain ⟨pq, hpq, h₃⟩ := bind_eq_ok_iff.mp h₂
  obtain ⟨qp, hqp, h₄⟩ := bind_eq_ok_iff.mp h₃
  obtain ⟨twice, htwice, h₅⟩ := bind_eq_ok_iff.mp h₄
  rw [mapError_eq_ok_iff] at hp hq htwice
  have hlists : (pq.newToOld.toList, qp.newToOld.toList, twice) =
      ([0, 2, 1], [2, 1, 0], #['a', 'c', 'b']) := Except.ok.inj h₅
  simp only [Prod.mk.injEq] at hlists
  have hsize : p.size = 3 := (toOld_of_ofOrder hp).1
  have hsize' : q.size = 3 := (toOld_of_ofOrder hq).1
  obtain ⟨pq', -, -, hpq', -, -, -, -, -, hinverse, -, hback, -⟩ := group_laws hsize hsize' hsize
  cases hpq.symm.trans hpq'
  have hne : q.andThen p ≠ .ok pq := by
    intro heq
    cases hqp.symm.trans heq
    simp [hlists.2.1] at hlists
  exact ⟨p, q, pq, twice, hp, hq, hsize, hsize', hpq, hne, hback, hinverse, htwice, hlists.2.2⟩

end Renumbering

end LocalityOrder
