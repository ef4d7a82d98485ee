import LocalityOrder.Table
import Mathlib.Data.List.Forall2

/-!
# Checked computations

Every computation of the library either has a value or ends in an error.  This file opens such
computations step by step, and it compares two of them: `Alike R x y` says that `x` and `y` end in
the same error or have values that `R` relates.
-/

namespace LocalityOrder

universe u v w

variable {ε : Type u} {α β γ δ : Type v}

/-! ## One computation -/

@[simp] theorem ok_bind (a : α) (f : α → Except ε β) : (Except.ok a >>= f) = f a := rfl

@[simp] theorem error_bind (e : ε) (f : α → Except ε β) :
    (Except.error e >>= f) = .error e := rfl

@[simp] theorem pure_eq_ok (a : α) : (pure a : Except ε α) = .ok a := rfl

theorem bind_eq_ok_iff {x : Except ε α} {f : α → Except ε β} {b : β} :
    (x >>= f) = .ok b ↔ ∃ a, x = .ok a ∧ f a = .ok b := by
  cases x with
  | ok a => simp
  | error e => simp

theorem mapError_eq_ok_iff {ε' : Type w} {f : ε → ε'} {x : Except ε α} {a : α} :
    x.mapError f = .ok a ↔ x = .ok a := by
  cases x with
  | ok b =>
    constructor
    · intro h
      cases h
      rfl
    · intro h
      cases h
      rfl
  | error e => exact ⟨nofun, nofun⟩

theorem bind_eq_error_iff {x : Except ε α} {f : α → Except ε β} {e : ε} :
    (x >>= f) = .error e ↔ x = .error e ∨ ∃ a, x = .ok a ∧ f a = .error e := by
  cases x with
  | ok a => simp
  | error e' => simp

-- What is done with a value needs to agree only on the values that there are.
theorem bind_congr_of_eq_ok {x : Except ε α} {f f' : α → Except ε β}
    (h : ∀ a, x = .ok a → f a = f' a) : (x >>= f) = (x >>= f') := by
  cases x with
  | ok a => exact h a rfl
  | error e => rfl

theorem mapError_eq_error_iff {ε' : Type w} {f : ε → ε'} {x : Except ε α} {e : ε'} :
    x.mapError f = .error e ↔ ∃ cause, x = .error cause ∧ f cause = e := by
  cases x with
  | ok a => exact ⟨nofun, nofun⟩
  | error cause => simp [Except.mapError]

theorem mapError_bind {ε' : Type w} (g : ε → ε') (x : Except ε α) (f : α → Except ε β) :
    (x >>= f).mapError g = x.mapError g >>= fun a => (f a).mapError g := by
  cases x with
  | ok a => rfl
  | error e => rfl

theorem foldlM_mapError {ε' : Type w} {κ : Type w} (g : ε → ε') (f : α → κ → Except ε α)
    (l : List κ) (a : α) :
    l.foldlM (fun a k => (f a k).mapError g) a = (l.foldlM f a).mapError g := by
  induction l generalizing a with
  | nil => rfl
  | cons k rest ih =>
    rw [List.foldlM_cons, List.foldlM_cons, mapError_bind]
    exact bind_congr ih

theorem exists_eq_ok {x : Except ε α} {f : α → β} {b : β} (h : x.toOption.map f = some b) :
    ∃ a, x = .ok a ∧ f a = b := by
  cases x with
  | ok a => exact ⟨a, rfl, Option.some_inj.mp h⟩
  | error e => cases h

-- Many computations have values if each of them has one.
theorem mapM_eq_ok_iff {ε α β : Type} {f : α → Except ε β} {l : List α} {l' : List β} :
    l.mapM f = .ok l' ↔ List.Forall₂ (fun a b => f a = .ok b) l l' := by
  induction l generalizing l' with
  | nil =>
    rw [List.mapM_nil, List.forall₂_nil_left_iff, pure_eq_ok, Except.ok.injEq, eq_comm]
  | cons a rest ih =>
    rw [List.mapM_cons, bind_eq_ok_iff, List.forall₂_cons_left_iff]
    constructor
    · rintro ⟨b, hb, hbind⟩
      obtain ⟨rest', hrest, hl'⟩ := bind_eq_ok_iff.mp hbind
      cases hl'
      exact ⟨b, rest', hb, ih.mp hrest, rfl⟩
    · rintro ⟨b, rest', hb, hrest, rfl⟩
      exact ⟨b, hb, bind_eq_ok_iff.mpr ⟨rest', ih.mpr hrest, rfl⟩⟩

theorem mapM_eq_ok {ε α β : Type} {f : α → Except ε β} {f' : α → β} {l : List α}
    (h : ∀ a ∈ l, f a = .ok (f' a)) : l.mapM f = .ok (l.map f') := by
  rw [mapM_eq_ok_iff, List.forall₂_map_right_iff]
  exact List.forall₂_same.mpr h

theorem exists_of_mapM_eq_ok {ε α β : Type} {f : α → Except ε β} {l : List α} {l' : List β}
    (h : l.mapM f = .ok l') : ∀ a ∈ l, ∃ b, f a = .ok b := by
  obtain ⟨hlength, hget⟩ := List.forall₂_iff_get.mp (mapM_eq_ok_iff.mp h)
  intro a ha
  obtain ⟨i, hi, rfl⟩ := List.getElem_of_mem ha
  exact ⟨l'[i], hget i hi (hlength ▸ hi)⟩

-- The first item that fails decides.
theorem mapM_eq_error_of_append {ε α β : Type} {f : α → Except ε β} {before after : List α} {a : α}
    {e : ε} (hbefore : ∀ b ∈ before, ∃ c, f b = .ok c) (ha : f a = .error e) :
    (before ++ a :: after).mapM f = .error e := by
  induction before with
  | nil => rw [List.nil_append, List.mapM_cons, ha, error_bind]
  | cons b rest ih =>
    obtain ⟨c, hc⟩ := hbefore b List.mem_cons_self
    rw [List.cons_append, List.mapM_cons, hc, ok_bind,
      ih fun b' hb' => hbefore b' (List.mem_cons_of_mem b hb'), error_bind]

/-! ## Two computations -/

/-- Both computations end in the same error, or both have values, and these are related. -/
inductive Alike (R : α → γ → Prop) : Except ε α → Except ε γ → Prop
  | ok {a : α} {c : γ} (h : R a c) : Alike R (.ok a) (.ok c)
  | error (e : ε) : Alike R (.error e) (.error e)

namespace Alike

variable {R : α → γ → Prop} {S : β → δ → Prop} {x : Except ε α} {y : Except ε γ}

theorem bind {f : α → Except ε β} {g : γ → Except ε δ} (h : Alike R x y)
    (hfg : ∀ a c, R a c → Alike S (f a) (g c)) : Alike S (x >>= f) (y >>= g) := by
  cases h with
  | ok hac => exact hfg _ _ hac
  | error e => exact .error e

-- Two computations that begin with the same step.
theorem bind_same {x : Except ε γ} {f : γ → Except ε β} {g : γ → Except ε δ}
    (hfg : ∀ c, x = .ok c → Alike S (f c) (g c)) : Alike S (x >>= f) (x >>= g) := by
  cases x with
  | ok c => exact hfg c rfl
  | error e => exact .error e

theorem exists_right {a : α} (h : Alike R x y) (hx : x = .ok a) : ∃ c, y = .ok c ∧ R a c := by
  cases h with
  | ok hac =>
    cases hx
    exact ⟨_, rfl, hac⟩
  | error e => cases hx

theorem exists_left {c : γ} (h : Alike R x y) (hy : y = .ok c) : ∃ a, x = .ok a ∧ R a c := by
  cases h with
  | ok hac =>
    cases hy
    exact ⟨_, rfl, hac⟩
  | error e => cases hy

theorem eq_error {e : ε} (h : Alike R x y) (hy : y = .error e) : x = .error e := by
  cases h with
  | ok hac => cases hy
  | error e =>
    cases hy
    rfl

-- What the values are can be used to relate them.
theorem with_values (h : Alike R x y) :
    Alike (fun a c => R a c ∧ x = .ok a ∧ y = .ok c) x y := by
  cases h with
  | ok hac => exact .ok ⟨hac, rfl, rfl⟩
  | error e => exact .error e

theorem symm (h : Alike R x y) : Alike (fun c a => R a c) y x := by
  cases h with
  | ok hac => exact .ok hac
  | error e => exact .error e

theorem trans {T : γ → δ → Prop} {z : Except ε δ} (h : Alike R x y) (h' : Alike T y z) :
    Alike (fun a d => ∃ c, R a c ∧ T c d) x z := by
  cases h with
  | ok hac =>
    cases h' with
    | ok hcd => exact .ok ⟨_, hac, hcd⟩
  | error e =>
    cases h'
    exact .error e

theorem mono {R' : α → γ → Prop} (h : Alike R x y) (hR : ∀ a c, R a c → R' a c) :
    Alike R' x y := by
  cases h with
  | ok hac => exact .ok (hR _ _ hac)
  | error e => exact .error e

theorem foldlM {κ : Type w} {f : α → κ → Except ε α} {g : γ → κ → Except ε γ} {l : List κ}
    (hfg : ∀ k ∈ l, ∀ a c, R a c → Alike R (f a k) (g c k)) {a : α} {c : γ} (h : R a c) :
    Alike R (l.foldlM f a) (l.foldlM g c) := by
  induction l generalizing a c with
  | nil => exact .ok h
  | cons k rest ih =>
    rw [List.foldlM_cons, List.foldlM_cons]
    apply (hfg k List.mem_cons_self a c h).bind
    intro a' c' h'
    exact ih (fun k hk => hfg k (List.mem_cons_of_mem _ hk)) h'

end Alike

end LocalityOrder
