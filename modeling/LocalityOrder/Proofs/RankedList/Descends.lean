import LocalityOrder.Vertex
import Mathlib.Data.List.Nodup
import Mathlib.Data.List.TakeWhile

/-!
# Lists by descending key

An element enters such a list at the end of the run of its key.  Raising a key and folding a
decrease both do this, so the facts on `insertByKey` serve both.
-/

namespace LocalityOrder

/-- No key is below one that comes later. -/
def Descends (keyOf : Vertex → Nat) (l : List Vertex) : Prop :=
  l.Pairwise fun v w => keyOf w ≤ keyOf v

/-- A list by descending key, with `v` put after the last element whose key is at least `key`. -/
def insertByKey (keyOf : Vertex → Nat) (key : Nat) (v : Vertex) (l : List Vertex) : List Vertex :=
  l.takeWhile (fun w => key ≤ keyOf w) ++ v :: l.dropWhile (fun w => key ≤ keyOf w)

variable {keyOf keyOf' : Vertex → Nat} {key : Nat} {u v w : Vertex} {l l' : List Vertex}

theorem insertByKey_cons : insertByKey keyOf key v (w :: l) =
    if key ≤ keyOf w then w :: insertByKey keyOf key v l else v :: w :: l := by
  unfold insertByKey
  rw [List.takeWhile_cons, List.dropWhile_cons]
  by_cases hw : key ≤ keyOf w
  · simp only [hw, decide_true, if_true, List.cons_append]
  · simp only [hw, decide_false, if_false, Bool.false_eq_true, List.nil_append]

theorem insertByKey_perm : (insertByKey keyOf key v l).Perm (v :: l) := by
  apply List.perm_middle.trans
  rw [List.takeWhile_append_dropWhile]

theorem mem_insertByKey : w ∈ insertByKey keyOf key v l ↔ w = v ∨ w ∈ l := by
  rw [insertByKey_perm.mem_iff, List.mem_cons]

theorem le_of_mem_takeWhile (hw : w ∈ l.takeWhile fun w => key ≤ keyOf w) : key ≤ keyOf w := by
  simpa using List.mem_takeWhile_imp hw

-- behind the last element of a run, no element has its key
theorem ne_of_getLast?_filter (hnodup : (l ++ v :: w :: l').Nodup)
    (hlast : ((l ++ v :: w :: l').filter fun u => keyOf u = key).getLast? = some v) :
    keyOf w ≠ key := by
  intro hkey
  have hmem : w ∈ (w :: l').filter fun u => keyOf u = key :=
    List.mem_filter.mpr ⟨List.mem_cons_self, by simpa using hkey⟩
  have hsplit : l ++ v :: w :: l' = (l ++ [v]) ++ w :: l' := by simp
  rw [hsplit, List.filter_append,
    List.getLast?_append_of_ne_nil _ (List.ne_nil_of_mem hmem)] at hlast
  have hv := (List.mem_filter.mp (List.mem_of_getLast? hlast)).1
  exact (List.nodup_cons.mp (List.nodup_append.mp hnodup).2.1).1 hv

namespace Descends

theorem of_cons (h : Descends keyOf (v :: l)) : Descends keyOf l := (List.pairwise_cons.mp h).2

theorem of_append_right (h : Descends keyOf (l ++ l')) : Descends keyOf l' :=
  (List.pairwise_append.mp h).2.1

theorem le_head (h : Descends keyOf (v :: l)) (hw : w ∈ v :: l) : keyOf w ≤ keyOf v := by
  rcases List.mem_cons.mp hw with rfl | hw
  · exact Nat.le_refl _
  · exact (List.pairwise_cons.mp h).1 w hw

theorem sublist (h : Descends keyOf l) (hl : l'.Sublist l) :
    Descends keyOf l' := List.Pairwise.sublist hl h

theorem congr (h : Descends keyOf l) (heq : ∀ w ∈ l, keyOf' w = keyOf w) :
    Descends keyOf' l := by
  refine List.Pairwise.imp_of_mem (fun {a b} ha hb hab => ?_) h
  rw [heq a ha, heq b hb]
  exact hab

theorem tail_le (h : Descends keyOf (l ++ v :: l')) (hw : w ∈ l') : keyOf w ≤ keyOf v :=
  h.of_append_right.le_head (List.mem_cons_of_mem v hw)

theorem le_front (h : Descends keyOf (l ++ v :: l')) (hw : w ∈ l) : keyOf v ≤ keyOf w :=
  (List.pairwise_append.mp h).2.2 w hw v List.mem_cons_self

-- Behind an element, its run goes on right away or not at all.
theorem head?_eq_of_filter (h : Descends keyOf (l ++ v :: l'))
    (hw : (l'.filter fun u => keyOf u = keyOf v).head? = some w) : l'.head? = some w := by
  have hmem := List.mem_filter.mp (List.mem_of_head? hw)
  have hkey : keyOf w = keyOf v := by simpa using hmem.2
  cases l' with
  | nil => simp at hw
  | cons u rest =>
    have hle := h.tail_le (List.mem_cons_self (a := u) (l := rest))
    have hge := h.of_append_right.of_cons.le_head hmem.1
    rwa [List.filter_cons_of_pos (by simp only [decide_eq_true_eq]; omega)] at hw

-- In front of an element, its run comes right before it or not at all.
theorem getLast?_eq_of_filter (h : Descends keyOf (l ++ v :: l'))
    (hw : (l.filter fun u => keyOf u = keyOf v).getLast? = some w) : l.getLast? = some w := by
  have hmem := List.mem_filter.mp (List.mem_of_getLast? hw)
  have hkey : keyOf w = keyOf v := by simpa using hmem.2
  rcases List.eq_nil_or_concat l with rfl | ⟨front, u, rfl⟩
  · simp at hw
  · rw [List.concat_eq_append] at *
    have hge := h.le_front (w := u) (by simp)
    have hle : keyOf u ≤ keyOf w := by
      rcases List.mem_append.mp hmem.1 with hfront | hlast
      · exact (h.sublist (List.sublist_append_left _ _)).le_front hfront
      · rw [List.mem_singleton.mp hlast]
    have hu : keyOf u = keyOf v := by omega
    rw [List.filter_append, List.filter_cons_of_pos (by simpa using hu), List.filter_nil,
      List.getLast?_append, List.getLast?_singleton, Option.some_or] at hw
    rw [List.getLast?_append, List.getLast?_singleton, Option.some_or, hw]

-- Where the keys of the list begin to be below `key`, they stay so.
theorem lt_of_mem_dropWhile (h : Descends keyOf l)
    (hw : w ∈ l.dropWhile fun w => key ≤ keyOf w) : keyOf w < key := by
  induction l with
  | nil => simp at hw
  | cons u rest ih =>
    by_cases hu : key ≤ keyOf u
    · rw [List.dropWhile_cons_of_pos (by simpa using hu)] at hw
      exact ih h.of_cons hw
    · rw [List.dropWhile_cons_of_neg (by simpa using hu)] at hw
      have := h.le_head hw
      omega

-- Inserting by a key splits the list in two.
theorem exists_split (h : Descends keyOf l) (key : Nat) (v : Vertex) :
    ∃ high low, l = high ++ low ∧ LocalityOrder.insertByKey keyOf key v l = high ++ v :: low ∧
      (∀ w ∈ high, key ≤ keyOf w) ∧ ∀ w ∈ low, keyOf w < key :=
  ⟨_, _, List.takeWhile_append_dropWhile.symm, rfl, fun _ => le_of_mem_takeWhile,
    fun _ => h.lt_of_mem_dropWhile⟩

/-- The split is unique. -/
theorem insertByKey_eq {high low : List Vertex} (hhigh : ∀ w ∈ high, key ≤ keyOf w)
    (hlow : ∀ w ∈ low, keyOf w < key) :
    LocalityOrder.insertByKey keyOf key v (high ++ low) = high ++ v :: low := by
  have htake : low.takeWhile (fun w => key ≤ keyOf w) = [] := by
    cases low with
    | nil => rfl
    | cons u rest =>
      have := hlow u List.mem_cons_self
      exact List.takeWhile_cons_of_neg (by simp only [decide_eq_true_eq]; omega)
  have hdrop : low.dropWhile (fun w => key ≤ keyOf w) = low := by
    have hsplit := List.takeWhile_append_dropWhile (p := fun w => key ≤ keyOf w) (l := low)
    rwa [htake, List.nil_append] at hsplit
  unfold LocalityOrder.insertByKey
  have hall : ∀ w ∈ high, decide (key ≤ keyOf w) = true := by simpa using hhigh
  rw [List.takeWhile_append_of_pos hall, List.dropWhile_append_of_pos hall, htake, hdrop,
    List.append_nil]

-- The first element of a run that gets the next key stays where it is.
theorem insertByKey_of_first (h : Descends keyOf (l ++ v :: l')) (hnodup : (l ++ v :: l').Nodup)
    (hfirst : ((l ++ v :: l').filter fun w => keyOf w = keyOf v).head? = some v) :
    LocalityOrder.insertByKey keyOf (keyOf v + 1) v (l ++ l') = l ++ v :: l' := by
  refine insertByKey_eq (fun w hw => ?_) fun w hw => Nat.lt_succ_of_le (h.tail_le hw)
  apply Nat.lt_of_le_of_ne (h.le_front hw)
  intro heq
  have hmem : w ∈ l.filter fun w => keyOf w = keyOf v :=
    List.mem_filter.mpr ⟨hw, by simpa using heq.symm⟩
  rw [List.filter_append, List.head?_append_of_ne_nil _ (List.ne_nil_of_mem hmem)] at hfirst
  have hv := (List.mem_filter.mp (List.mem_of_head? hfirst)).1
  exact (List.nodup_append.mp hnodup).2.2 v hv v List.mem_cons_self rfl

-- Any other element of a run that gets the next key moves right in front of the first one.
theorem insertByKey_of_not_first (h : Descends keyOf (l ++ v :: l'))
    (hfirst : ((l ++ v :: l').filter fun w => keyOf w = keyOf v).head? = some u) (hne : u ≠ v) :
    ∃ high low, l ++ l' = high ++ u :: low ∧
      LocalityOrder.insertByKey keyOf (keyOf v + 1) v (l ++ l') = high ++ v :: u :: low := by
  have hothers : Descends keyOf (l ++ l') := h.sublist (by simp)
  obtain ⟨high, low, hsplit, hinsert, hhigh, hlow⟩ := hothers.exists_split (keyOf v + 1) v
  have hfirst' : (low.filter fun w => keyOf w = keyOf v).head? = some u := by
    have hhigh' : high.filter (fun w => keyOf w = keyOf v) = [] := by
      apply List.filter_eq_nil_iff.mpr
      intro w hw
      have := hhigh w hw
      simp only [decide_eq_true_eq]
      omega
    have hsame : low.filter (fun w => keyOf w = keyOf v) =
        (l ++ l').filter fun w => keyOf w = keyOf v := by
      rw [hsplit, List.filter_append, hhigh', List.nil_append]
    rw [List.filter_append, List.filter_cons_of_pos (by simp)] at hfirst
    rw [hsame, List.filter_append]
    cases hl : l.filter fun w => keyOf w = keyOf v with
    | nil =>
      rw [hl] at hfirst
      exact absurd (by simpa using hfirst.symm) hne
    | cons a rest =>
      rw [hl] at hfirst
      exact hfirst
  cases low with
  | nil => simp at hfirst'
  | cons a rest =>
    have hmem := List.mem_filter.mp (List.mem_of_head? hfirst')
    have hkey : keyOf u = keyOf v := by simpa using hmem.2
    have hle := (hsplit ▸ hothers).of_append_right.le_head hmem.1
    have hlt := hlow a List.mem_cons_self
    rw [List.filter_cons_of_pos (by simp only [decide_eq_true_eq]; omega), List.head?_cons,
      Option.some_inj] at hfirst'
    subst hfirst'
    exact ⟨high, rest, hsplit, hinsert⟩

-- An element that gets the next key comes to the head unless the head is above it.
theorem head?_insertByKey (h : Descends keyOf (l ++ v :: l'))
    (hhead : (l ++ v :: l').head? = some u) (hv : keyOf' v = keyOf v + 1)
    (heq : ∀ w, w ≠ v → keyOf' w = keyOf w) :
    (LocalityOrder.insertByKey keyOf (keyOf v + 1) v (l ++ l')).head? =
      if keyOf' u < keyOf v + 1 then some v else some u := by
  cases l with
  | nil =>
    obtain rfl : v = u := by simpa using hhead
    have hlow : ∀ w ∈ l', keyOf w < keyOf v + 1 := fun w hw =>
      Nat.lt_succ_of_le (h.tail_le (l := []) hw)
    rw [insertByKey_eq (by simp) hlow, hv, if_neg (Nat.lt_irrefl _)]
    rfl
  | cons a l =>
    obtain rfl : a = u := by simpa using hhead
    unfold LocalityOrder.insertByKey
    rw [List.cons_append]
    by_cases ha : keyOf v + 1 ≤ keyOf a
    · have hne : a ≠ v := by
        rintro rfl
        omega
      rw [List.takeWhile_cons_of_pos (by simpa using ha), heq a hne, if_neg (Nat.not_lt.mpr ha)]
      rfl
    · rw [List.takeWhile_cons_of_neg (by simpa using ha)]
      by_cases hne : a = v
      · rw [hne, ite_self]
        rfl
      · rw [heq a hne, if_pos (Nat.lt_of_not_le ha)]
        rfl

-- With its new key, an inserted element keeps the list in order.
theorem insertByKey (h : Descends keyOf l) (heq : ∀ w ∈ l, keyOf' w = keyOf w)
    (hv : keyOf' v = key) : Descends keyOf' (insertByKey keyOf key v l) := by
  have hsorted := h.congr heq
  have htake : ∀ w ∈ l.takeWhile fun w => key ≤ keyOf w, key ≤ keyOf' w := fun w hw => by
    rw [heq w ((List.takeWhile_sublist _).subset hw)]
    exact le_of_mem_takeWhile hw
  have hdrop : ∀ w ∈ l.dropWhile fun w => key ≤ keyOf w, keyOf' w < key := fun w hw => by
    rw [heq w ((List.dropWhile_sublist _).subset hw)]
    exact h.lt_of_mem_dropWhile hw
  refine List.pairwise_append.mpr ⟨hsorted.sublist (List.takeWhile_sublist _),
    List.pairwise_cons.mpr ⟨fun w hw => ?_, hsorted.sublist (List.dropWhile_sublist _)⟩, ?_⟩
  · have := hdrop w hw
    omega
  · intro a ha b hb
    have ha' := htake a ha
    rcases List.mem_cons.mp hb with rfl | hb
    · omega
    · have := hdrop b hb
      omega

/-- An inserted element comes last in the run of its new key, and all other runs stay. -/
theorem filter_insertByKey (h : Descends keyOf l) (heq : ∀ w ∈ l, keyOf' w = keyOf w)
    (hv : keyOf' v = key) (other : Nat) :
    (LocalityOrder.insertByKey keyOf key v l).filter (fun w => keyOf' w = other) =
      if other = key then l.filter (fun w => keyOf w = key) ++ [v]
      else l.filter fun w => keyOf w = other := by
  have hsame : ∀ l' : List Vertex, l'.Sublist l → l'.filter (fun w => keyOf' w = other) =
      l'.filter fun w => keyOf w = other := fun l' hl' => by
    apply List.filter_congr
    intro w hw
    rw [heq w (hl'.subset hw)]
  have hsplit : l.filter (fun w => keyOf w = other) =
      (l.takeWhile fun w => key ≤ keyOf w).filter (fun w => keyOf w = other) ++
      (l.dropWhile fun w => key ≤ keyOf w).filter fun w => keyOf w = other := by
    rw [← List.filter_append, List.takeWhile_append_dropWhile]
  unfold LocalityOrder.insertByKey
  rw [List.filter_append, List.filter_cons, hsame _ (List.takeWhile_sublist _),
    hsame _ (List.dropWhile_sublist _), hv]
  by_cases hother : other = key
  · subst hother
    have hdrop : (l.dropWhile fun w => other ≤ keyOf w).filter (fun w => keyOf w = other) = [] := by
      apply List.filter_eq_nil_iff.mpr
      intro w hw
      have := h.lt_of_mem_dropWhile hw
      simp only [decide_eq_true_eq]
      omega
    rw [if_pos rfl, hsplit, hdrop]
    simp
  · rw [if_neg hother, hsplit]
    simp [Ne.symm hother]

end Descends

end LocalityOrder
