import LocalityOrder.Proofs.RankedList.Assign
import LocalityOrder.Proofs.RankedList.Extract

/-!
# Histories of ranked lists

A ranked list stays well-formed through every history.  As long as the numbers it is given are
scores, its keys are scores too and its decreases can be folded, so that the best element is always
found: no history ends because a list did not settle.
-/

namespace LocalityOrder

namespace RunQueue.Operation

/-- The numbers that the operation is given are scores. -/
def Fits : Operation → Prop
  | .addPending _ change | .setPending _ change => Score.Fits change
  | .assignKeys keys => ∀ key ∈ keys.toList, Score.Fits key
  | _ => True

instance : (operation : Operation) → Decidable operation.Fits
  | .addPending _ change | .setPending _ change => inferInstanceAs (Decidable (Score.Fits change))
  | .assignKeys keys => inferInstanceAs (Decidable (∀ key ∈ keys.toList, Score.Fits key))
  | .raise _ | .remove _ | .extractMax | .key _ | .pending _ | .effectiveKey _ | .isRemoved _
  | .isEmpty | .size | .head => .isTrue trivial

/-- The operation leaves every queue as it is. -/
def IsQuestion : Operation → Prop
  | .raise _ | .addPending _ _ | .setPending _ _ | .remove _ | .assignKeys _ | .extractMax => False
  | .key _ | .pending _ | .effectiveKey _ | .isRemoved _ | .isEmpty | .size | .head => True

end RunQueue.Operation

/-! ## Computations that settle -/

/-- The computation does not end because a queue did not settle. -/
def Settles {α : Type} (x : Except Fault α) : Prop := x ≠ .error .unsettled

namespace Settles

variable {α β : Type}

theorem of_ok (a : α) : Settles (.ok a) := nofun

theorem bind {x : Except Fault α} {f : α → Except Fault β} (hx : Settles x)
    (hf : ∀ a, x = .ok a → Settles (f a)) : Settles (x >>= f) := by
  cases x with
  | ok a => exact hf a rfl
  | error e => exact fun h => hx (congrArg Except.error (Except.error.inj h))

theorem get (t : Table α) (i : Nat) : Settles (t.get i) := by
  unfold Table.get
  split
  next => exact of_ok _
  next => exact nofun

theorem put (t : Table α) (i : Nat) (value : α) : Settles (t.put i value) := by
  unfold Table.put
  split
  next => exact of_ok _
  next => exact nofun

theorem checked (x : Int) : Settles (Score.checked x) := by
  unfold Score.checked
  split
  next => exact of_ok _
  next => exact nofun

theorem raisedKey (key : Nat) : Settles (RankedList.raisedKey key) := by
  unfold RankedList.raisedKey
  split
  next => exact of_ok _
  next => exact nofun

theorem givenKey (keys : Table Int) (v : Vertex) : Settles (RankedList.givenKey keys v) := by
  unfold RankedList.givenKey
  apply (get keys v).bind
  intro key _
  cases key with
  | ofNat key => exact of_ok _
  | negSucc below => exact nofun

theorem foldlM {f : α → β → Except Fault α} (h : ∀ a b, Settles (f a b)) (l : List β) (a : α) :
    Settles (l.foldlM f a) := by
  induction l generalizing a with
  | nil => exact of_ok a
  | cons b rest ih =>
    rw [List.foldlM_cons]
    exact (h a b).bind fun a' _ => ih a'

end Settles

namespace RankedList

open RunQueue (Operation Answer)

variable {r r' : RankedList} {v : Vertex} {operation : Operation} {answer : Answer}

/-! ## One operation -/

/-- The operation takes the first list to the second. -/
inductive Performed (r r' : RankedList) : Operation → Prop
  | raise (v : Vertex) (h : r.raise v = .ok r') : Performed r r' (.raise v)
  | addPending (v : Vertex) (change : Score) (h : r.addPending v change = .ok r') :
      Performed r r' (.addPending v change)
  | setPending (v : Vertex) (change : Score) (h : r.setPending v change = .ok r') :
      Performed r r' (.setPending v change)
  | remove (v : Vertex) (h : r.remove v = .ok r') : Performed r r' (.remove v)
  | assignKeys (keys : Table Int) (h : r.assignKeys keys = .ok r') :
      Performed r r' (.assignKeys keys)
  | extractMax (v : Vertex) (h : r.extractMax = .ok (v, r')) : Performed r r' .extractMax
  | question (operation : Operation) (hquestion : operation.IsQuestion) (h : r' = r) :
      Performed r r' operation

theorem performed_of_perform (hr : r.perform operation = .ok (answer, r')) :
    Performed r r' operation := by
  cases operation with
  | raise v =>
    obtain ⟨r₁, h, heq⟩ := bind_eq_ok_iff.mp hr
    cases heq
    exact .raise v h
  | addPending v change =>
    obtain ⟨r₁, h, heq⟩ := bind_eq_ok_iff.mp hr
    cases heq
    exact .addPending v change h
  | setPending v change =>
    obtain ⟨r₁, h, heq⟩ := bind_eq_ok_iff.mp hr
    cases heq
    exact .setPending v change h
  | remove v =>
    obtain ⟨r₁, h, heq⟩ := bind_eq_ok_iff.mp hr
    cases heq
    exact .remove v h
  | assignKeys keys =>
    obtain ⟨r₁, h, heq⟩ := bind_eq_ok_iff.mp hr
    cases heq
    exact .assignKeys keys h
  | extractMax =>
    obtain ⟨⟨v, r₁⟩, h, heq⟩ := bind_eq_ok_iff.mp hr
    cases heq
    exact .extractMax v h
  | key v | pending v | isRemoved v =>
    obtain ⟨value, -, heq⟩ := bind_eq_ok_iff.mp hr
    cases heq
    exact .question _ trivial rfl
  | effectiveKey v =>
    obtain ⟨key, -, hr⟩ := bind_eq_ok_iff.mp hr
    obtain ⟨change, -, hr⟩ := bind_eq_ok_iff.mp hr
    obtain ⟨value, -, heq⟩ := bind_eq_ok_iff.mp hr
    cases heq
    exact .question _ trivial rfl
  | isEmpty | size | head =>
    cases hr
    exact .question _ trivial rfl

theorem WellFormed.of_performed (h : r.WellFormed) (hr : Performed r r' operation) :
    r'.WellFormed := by
  cases hr with
  | raise v hr => exact (h.of_raise hr).1
  | addPending v change hr => exact (h.of_addPending hr).1
  | setPending v change hr => exact (h.of_setPending hr).1
  | remove v hr => exact (h.of_remove hr).1
  | assignKeys keys hr => exact (h.of_assignKeys hr).1
  | extractMax v hr =>
    obtain ⟨s, rest, hs, -, -, -, hremove⟩ := h.of_extractMax hr
    exact (hs.of_remove hremove).1
  | question _ _ heq => exact heq ▸ h

/-! ## Scores stay scores -/

namespace WellFormed

theorem lt_of_raise (h : r.WellFormed) (hv : v ∈ r.order) (hr : r.raise v = .ok r') :
    r.keyOf v < 2147483647 := by
  rw [h.raise_of_mem hv] at hr
  obtain ⟨raised, hraised, -⟩ := bind_eq_ok_iff.mp hr
  exact (raisedKey_eq_ok_iff.mp hraised).1

theorem foldable_of_raise (h : r.WellFormed) (hfits : r.Foldable) (hr : r.raise v = .ok r') :
    r'.Foldable := by
  obtain ⟨hwf, hremoved, hpending, hkey⟩ := h.of_raise hr
  intro w hw
  have hfit := hfits w ((h.mem_congr hwf hremoved).mp hw)
  rw [hkey, pendingOf, hpending]
  refine ⟨?_, hfit.2⟩
  split
  next hcase => exact h.lt_of_raise hcase.2 hr
  next => exact hfit.1

theorem foldable_of_setPending {change : Score} (h : r.WellFormed) (hfits : r.Foldable)
    (hchange : Score.Fits change) (hr : r.setPending v change = .ok r') : r'.Foldable := by
  obtain ⟨-, horder, -, hkeys, hpending⟩ := h.of_setPending hr
  intro w hw
  have hfit := hfits w (horder ▸ hw)
  rw [keyOf, hkeys, hpending]
  refine ⟨hfit.1, ?_⟩
  split
  next => exact hchange.1
  next => exact hfit.2

theorem foldable_of_remove (h : r.WellFormed) (hfits : r.Foldable) (hr : r.remove v = .ok r') :
    r'.Foldable := by
  obtain ⟨-, horder, hkeys, hpending, -⟩ := h.of_remove hr
  intro w hw
  rw [keyOf, hkeys, pendingOf, hpending]
  exact hfits w (List.mem_of_mem_erase (horder ▸ hw))

theorem foldable_of_assignKeys {keys : Table Int} (h : r.WellFormed) (hfits : r.Foldable)
    (hscores : ∀ key ∈ keys.toList, Score.Fits key) (hr : r.assignKeys keys = .ok r') :
    r'.Foldable := by
  obtain ⟨hwf, hremoved, hpending, hassigned⟩ := h.of_assignKeys hr
  intro w hw
  have hmem := (h.mem_congr hwf hremoved).mp hw
  obtain ⟨key, hkey, hnonneg, heq⟩ := hassigned w hmem
  have hle := (hscores key (Array.mem_toList_iff.mpr (Array.mem_of_getElem? hkey))).2
  rw [heq, pendingOf, hpending]
  refine ⟨?_, (hfits w hmem).2⟩
  omega

/-- Decreases can still be folded after an operation. -/
theorem foldable_of_performed (h : r.WellFormed) (hfits : r.Foldable)
    (hoperation : operation.Fits) (hr : Performed r r' operation) : r'.Foldable := by
  cases hr with
  | raise v hr => exact h.foldable_of_raise hfits hr
  | addPending v change hr =>
    obtain ⟨hsum, hset⟩ := h.setPending_of_addPending hr
    exact h.foldable_of_setPending hfits hsum hset
  | setPending v change hr => exact h.foldable_of_setPending hfits hoperation hr
  | remove v hr => exact h.foldable_of_remove hfits hr
  | assignKeys keys hr => exact h.foldable_of_assignKeys hfits hoperation hr
  | extractMax v hr =>
    obtain ⟨s, rest, hs, hfolded, -, -, hremove⟩ := h.of_extractMax hr
    exact hs.foldable_of_remove (h.foldable_of_folded hs hfolded hfits) hremove
  | question _ _ heq => exact heq ▸ hfits

end WellFormed

/-! ## Operations settle -/

theorem settles_raise (r : RankedList) (v : Vertex) : Settles (r.raise v) := by
  unfold raise
  refine (Settles.get _ _).bind fun gone _ => ?_
  split
  next => exact .of_ok r
  next =>
    exact (Settles.get _ _).bind fun key _ => (Settles.raisedKey key).bind fun raised _ =>
      (Settles.put _ _ _).bind fun _ _ => .of_ok _

theorem settles_setPending (r : RankedList) (v : Vertex) (change : Score) :
    Settles (r.setPending v change) :=
  (Settles.put _ _ _).bind fun _ _ => .of_ok _

theorem settles_addPending (r : RankedList) (v : Vertex) (change : Score) :
    Settles (r.addPending v change) :=
  (Settles.get _ _).bind fun _ _ => (Settles.checked _).bind fun _ _ =>
    (Settles.put _ _ _).bind fun _ _ => .of_ok _

theorem settles_remove (r : RankedList) (v : Vertex) : Settles (r.remove v) := by
  unfold remove
  refine (Settles.get _ _).bind fun gone _ => ?_
  split
  next => exact .of_ok r
  next => exact (Settles.put _ _ _).bind fun _ _ => .of_ok _

theorem settles_assignKeys (r : RankedList) (keys : Table Int) : Settles (r.assignKeys keys) := by
  unfold assignKeys
  refine (Settles.foldlM (fun assigned v => ?_) _ _).bind fun _ _ => .of_ok _
  exact (Settles.givenKey _ _).bind fun _ _ => Settles.put _ _ _

-- Here the fuel could run out, and does not since the decreases can be folded.
theorem WellFormed.settles_extractMax (h : r.WellFormed) (hfits : r.Foldable) :
    Settles r.extractMax := by
  by_cases hne : r.order = []
  · unfold extractMax
    rw [hne]
    exact nofun
  · obtain ⟨v, r', hr⟩ := h.exists_extractMax hfits hne
    rw [hr]
    exact .of_ok _

/-- No operation ends because the list did not settle. -/
theorem WellFormed.settles_perform (h : r.WellFormed) (hfits : r.Foldable)
    (operation : Operation) : Settles (r.perform operation) := by
  have hanswers : ∀ {α : Type} (f : α → Answer × RankedList) {x : Except Fault α}, Settles x →
      Settles (do return f (← x)) := fun f x hx => hx.bind fun a _ => .of_ok (f a)
  cases operation with
  | raise v => exact hanswers _ (r.settles_raise v)
  | addPending v change => exact hanswers _ (r.settles_addPending v change)
  | setPending v change => exact hanswers _ (r.settles_setPending v change)
  | remove v => exact hanswers _ (r.settles_remove v)
  | assignKeys keys => exact hanswers _ (r.settles_assignKeys keys)
  | extractMax => exact hanswers _ (h.settles_extractMax hfits)
  | key v => exact hanswers _ (Settles.get _ _)
  | pending v => exact hanswers _ (Settles.get _ _)
  | effectiveKey v =>
    exact (Settles.get _ _).bind fun _ _ => (Settles.get _ _).bind fun _ _ =>
      hanswers _ (Settles.checked _)
  | isRemoved v => exact hanswers _ (Settles.get _ _)
  | isEmpty | size | head => exact .of_ok _

/-! ## A whole history -/

theorem performAll_cons (operation : Operation) (rest : List Operation) :
    r.performAll (operation :: rest) = r.perform operation >>= fun x => x.2.performAll rest := by
  unfold performAll
  rw [List.foldlM_cons]
  cases r.perform operation <;> rfl

/-- No history of scores ends because the list did not settle. -/
theorem WellFormed.settles_performAll {history : List Operation} (h : r.WellFormed)
    (hfits : r.Foldable) (hhistory : ∀ operation ∈ history, operation.Fits) :
    Settles (r.performAll history) := by
  induction history generalizing r with
  | nil => exact .of_ok r
  | cons operation rest ih =>
    rw [performAll_cons]
    refine (h.settles_perform hfits operation).bind fun x hx => ?_
    have hperformed := performed_of_perform hx
    have hoperation := hhistory operation List.mem_cons_self
    exact ih (h.of_performed hperformed) (h.foldable_of_performed hfits hoperation hperformed)
      fun operation hmem => hhistory operation (List.mem_cons_of_mem _ hmem)

/-- Decreases can still be folded after a history of scores. -/
theorem WellFormed.foldable_of_performAll {history : List Operation} (h : r.WellFormed)
    (hfits : r.Foldable) (hhistory : ∀ operation ∈ history, operation.Fits)
    (hr : r.performAll history = .ok r') : r'.Foldable := by
  induction history generalizing r with
  | nil =>
    cases hr
    exact hfits
  | cons operation rest ih =>
    rw [performAll_cons] at hr
    obtain ⟨x, hx, hrest⟩ := bind_eq_ok_iff.mp hr
    have hperformed := performed_of_perform hx
    have hoperation := hhistory operation List.mem_cons_self
    exact ih (h.of_performed hperformed) (h.foldable_of_performed hfits hoperation hperformed)
      (fun operation hmem => hhistory operation (List.mem_cons_of_mem _ hmem)) hrest

theorem foldable_of_new {n : Nat} (hr : new n = .ok r) : r.Foldable := by
  obtain ⟨-, horder, -, hkeys, hpending⟩ := of_new hr
  intro v hv
  rw [horder, Vertex.mem_all] at hv
  have hkey : r.keyOf v = 0 := by
    rw [keyOf, hkeys, Table.getElem?_filled, if_pos hv, Option.getD_some]
  have hchange : r.pendingOf v = 0 := by
    rw [pendingOf, hpending, Table.getElem?_filled, if_pos hv, Option.getD_some]
  rw [hkey, hchange]
  decide

end RankedList

end LocalityOrder
