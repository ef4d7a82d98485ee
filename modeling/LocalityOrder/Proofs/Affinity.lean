import LocalityOrder.Proofs.Digraph
import Mathlib.Algebra.BigOperators.Ring.Finset
import Mathlib.Algebra.Order.BigOperators.Group.Finset
import Mathlib.Algebra.Order.Ring.Nat
import Mathlib.Data.List.Nodup
import Mathlib.Logic.Function.Basic

/-!
# What a slide counts

When a vertex enters the window, each of its edges counts for the other end, and each edge into it
counts for the siblings as well.  `gains` lists the vertices in the order in which they are counted,
and `losses` those for which an edge is taken back when another vertex leaves.  Together they change
the score of a vertex by the difference of the two affinities, less the deficit of the slide.
-/

namespace LocalityOrder

namespace Digraph

variable {g : Digraph} {e b u v : Vertex} {l : List Vertex}

theorem multiplicity_eq_zero (hrange : g.InRange) (hv : g.size ≤ v) (u : Vertex) :
    g.multiplicity u v = 0 := by
  apply Nat.eq_zero_of_not_pos
  intro hpos
  exact Nat.not_lt.mpr hv (hrange (u, v) (mem_edges.mpr (multiplicity_pos_iff.mp hpos)))

theorem inDegree_eq_zero (hrange : g.InRange) (hv : g.size ≤ v) : g.inDegree v = 0 := by
  unfold inDegree
  rw [Vertex.sum_all]
  exact Finset.sum_eq_zero fun u _ => multiplicity_eq_zero hrange hv u

-- Nothing is close to what is no vertex.
theorem affinity_eq_zero (hrange : g.InRange) (hv : g.size ≤ v) (x : Vertex) :
    g.affinity x v = 0 := by
  unfold affinity siblings
  rw [multiplicity_of_le hv, multiplicity_eq_zero hrange hv, Vertex.sum_all, Nat.zero_add]
  apply Finset.sum_eq_zero
  intro u _
  rw [multiplicity_eq_zero hrange hv, Nat.mul_zero, ite_self]

/-! ## Entering -/

/-- What an edge from `u` to the entering vertex counts: the siblings of a source that also points
at the leaving vertex are skipped. -/
def gainsFrom (g : Digraph) (leaving : Option Vertex) (u : Vertex) : List Vertex :=
  u :: if g.outDegree u ≤ 1 ∨ leaving.any (fun b => (g.targets u).contains b) then [] else
    g.targets u

/-- What is counted when `e` enters the window. -/
def gains (g : Digraph) (e : Vertex) (leaving : Option Vertex) : List Vertex :=
  (g.sources e).flatMap (g.gainsFrom leaving) ++ g.targets e

theorem sum_map_sources (g : Digraph) (e : Vertex) (f : Vertex → Nat) :
    ((g.sources e).map f).sum = ∑ u ∈ Finset.range g.size, g.multiplicity u e * f u := by
  rw [Finset.sum_list_map_count]
  simp only [count_sources, nsmul_eq_mul, Nat.cast_id]
  refine Finset.sum_subset (fun u hu => ?_) fun u _ hu => ?_
  · exact Finset.mem_range.mpr (lt_size_of_mem_sources (List.mem_toFinset.mp hu))
  · rw [List.mem_toFinset, mem_sources, ← multiplicity_pos_iff, Nat.pos_iff_ne_zero, not_not] at hu
    rw [hu, Nat.zero_mul]

theorem sum_multiplicity_ite (g : Digraph) (e v : Vertex) :
    ∑ u ∈ Finset.range g.size, g.multiplicity u e * (if u = v then 1 else 0) =
      g.multiplicity v e := by
  simp only [mul_ite, Nat.mul_one, Nat.mul_zero]
  rw [Finset.sum_ite_eq']
  split
  next => rfl
  next hv =>
    rw [Finset.mem_range, Nat.not_lt] at hv
    rw [multiplicity_of_le hv]

theorem count_gains (g : Digraph) (e : Vertex) (leaving : Option Vertex) (v : Vertex) :
    (g.gains e leaving).count v = g.multiplicity v e + g.multiplicity e v +
      ∑ u ∈ Finset.range g.size, g.multiplicity u e *
        if g.outDegree u ≤ 1 ∨ leaving.any (fun b => (g.targets u).contains b) then 0
        else g.multiplicity u v := by
  have hfrom : ∀ u, (g.gainsFrom leaving u).count v = (if u = v then 1 else 0) +
      if g.outDegree u ≤ 1 ∨ leaving.any (fun b => (g.targets u).contains b) then 0
      else g.multiplicity u v := fun u => by
    unfold gainsFrom
    rw [List.count_cons, Nat.add_comm]
    simp only [beq_iff_eq]
    congr 1
    split
    · rw [List.count_nil]
    · rfl
  unfold gains
  rw [List.count_append, List.count_flatMap, sum_map_sources]
  simp only [Function.comp_apply, hfrom, Nat.mul_add]
  rw [Finset.sum_add_distrib, sum_multiplicity_ite]
  change _ + g.multiplicity e v = _
  omega

-- Without a leaving vertex, what is counted is the affinity to the entering one.
theorem count_gains_none (g : Digraph) (e v : Vertex) :
    (g.gains e none).count v = g.affinity e v := by
  rw [count_gains, affinity, siblings, Vertex.sum_all]
  congr 1
  apply Finset.sum_congr rfl
  intro u _
  by_cases hu : g.outDegree u ≤ 1
  · rw [if_pos (.inl hu), if_neg (Nat.not_lt.mpr hu), Nat.mul_zero]
  · rw [if_neg (by simpa using hu), if_pos (Nat.lt_of_not_le hu)]

/-! ## Leaving -/

/-- What is taken back for the edges from the given sources to the leaving vertex.  The siblings of
a flagged source are skipped once. -/
def lossesFrom (g : Digraph) : (flagged : Vertex → Bool) → List Vertex → List Vertex
  | _, [] => []
  | flagged, u :: rest =>
    if g.outDegree u ≤ 1 then u :: g.lossesFrom flagged rest
    else if flagged u then u :: g.lossesFrom (Function.update flagged u false) rest
    else u :: g.targets u ++ g.lossesFrom flagged rest

/-- The sources of the entering vertex whose siblings are skipped as `b` leaves. -/
def flags (g : Digraph) (e b u : Vertex) : Bool :=
  decide (u ∈ g.sources e) && (decide (1 < g.outDegree u) && (g.targets u).contains b)

/-- What is taken back when `b` leaves the window that `e` enters. -/
def losses (g : Digraph) (e b : Vertex) : List Vertex :=
  g.lossesFrom (g.flags e b) (g.sources b) ++ g.targets b

/-- How often `v` is taken back as a target of the source `u`: for each edge that `u` has to the
leaving vertex, but once less if `u` is flagged. -/
def lossesThrough (g : Digraph) (flagged : Vertex → Bool) (us : List Vertex) (v u : Vertex) : Nat :=
  if 1 < g.outDegree u then (us.count u - if flagged u then 1 else 0) * g.multiplicity u v else 0

section Through

variable {flagged : Vertex → Bool} {w : Vertex} {rest : List Vertex}

-- a source in front changes what is taken back through itself only
theorem lossesThrough_cons_of_ne (hu : u ≠ w) :
    g.lossesThrough flagged (w :: rest) v u = g.lossesThrough flagged rest v u := by
  unfold lossesThrough
  rw [List.count_cons_of_ne (Ne.symm hu)]

theorem lossesThrough_cons_of_outDegree_le (hw : g.outDegree w ≤ 1) :
    g.lossesThrough flagged (w :: rest) v = g.lossesThrough flagged rest v := by
  ext u
  by_cases hu : u = w
  · unfold lossesThrough
    rw [hu, if_neg (Nat.not_lt.mpr hw), if_neg (Nat.not_lt.mpr hw)]
  · exact lossesThrough_cons_of_ne hu

theorem lossesThrough_cons_of_flagged (hflag : flagged w = true) :
    g.lossesThrough flagged (w :: rest) v =
      g.lossesThrough (Function.update flagged w false) rest v := by
  ext u
  by_cases hu : u = w
  · unfold lossesThrough
    rw [hu, hflag, Function.update_self, List.count_cons_self]
    simp
  · rw [lossesThrough_cons_of_ne hu]
    unfold lossesThrough
    rw [Function.update_of_ne hu]

theorem lossesThrough_cons (hw : 1 < g.outDegree w) (hflag : ¬ flagged w = true) (u : Vertex) :
    g.lossesThrough flagged (w :: rest) v u =
      g.lossesThrough flagged rest v u + if u = w then g.multiplicity u v else 0 := by
  by_cases hu : u = w
  · unfold lossesThrough
    rw [hu, if_pos hw, if_pos hw, if_pos rfl, List.count_cons_self, if_neg hflag, Nat.sub_zero,
      Nat.sub_zero, Nat.succ_mul]
  · rw [lossesThrough_cons_of_ne hu, if_neg hu, Nat.add_zero]

end Through

theorem count_lossesFrom (g : Digraph) (flagged : Vertex → Bool) (us : List Vertex) (v : Vertex) :
    (g.lossesFrom flagged us).count v =
      us.count v + ∑ u ∈ Finset.range g.size, g.lossesThrough flagged us v u := by
  induction us generalizing flagged with
  | nil => simp [lossesFrom, lossesThrough]
  | cons w rest ih =>
    -- the cases are those in which `lossesFrom` takes the first source
    unfold lossesFrom
    split
    next hw =>
      rw [List.count_cons, List.count_cons, ih, lossesThrough_cons_of_outDegree_le hw]
      omega
    next hw =>
      split
      next hflag =>
        rw [List.count_cons, List.count_cons, ih, lossesThrough_cons_of_flagged hflag]
        omega
      next hflag =>
        have hsize : w ∈ Finset.range g.size := by
          apply Finset.mem_range.mpr
          apply Nat.lt_of_not_le
          intro hle
          rw [outDegree, targets_of_le hle] at hw
          exact hw (Nat.zero_le 1)
        rw [List.cons_append, List.count_cons, List.count_cons, List.count_append, ih]
        simp only [lossesThrough_cons (Nat.lt_of_not_le hw) hflag]
        rw [Finset.sum_add_distrib, Finset.sum_ite_eq', if_pos hsize]
        change (g.targets w).count v + _ + _ = _ + (_ + (g.targets w).count v)
        omega

/-! ## A whole slide -/

-- A source of two vertices has two edges.
theorem one_lt_outDegree (hne : e ≠ b) (he : 0 < g.multiplicity u e)
    (hb : 0 < g.multiplicity u b) : 1 < g.outDegree u := by
  rw [multiplicity_pos_iff] at he hb
  refine Nat.lt_of_not_le fun hle => hne ?_
  match htargets : g.targets u with
  | [] =>
    rw [htargets] at he
    cases he
  | [w] =>
    rw [htargets, List.mem_singleton] at he hb
    rw [he, hb]
  | _ :: _ :: _ =>
    rw [outDegree, htargets] at hle
    simp at hle

theorem flags_iff (hne : e ≠ b) :
    g.flags e b u = true ↔ 0 < g.multiplicity u e ∧ 0 < g.multiplicity u b := by
  unfold flags
  simp only [Bool.and_eq_true, decide_eq_true_eq, List.contains_iff_mem]
  rw [mem_sources, multiplicity_pos_iff, multiplicity_pos_iff]
  constructor
  · rintro ⟨he, -, hb⟩
    exact ⟨he, hb⟩
  · rintro ⟨he, hb⟩
    refine ⟨he, ?_, hb⟩
    exact one_lt_outDegree hne (multiplicity_pos_iff.mpr he) (multiplicity_pos_iff.mpr hb)

/-- The siblings that are skipped as `e` enters. -/
def skippedGains (g : Digraph) (e b v : Vertex) : Nat :=
  ∑ u ∈ Finset.range g.size, if g.flags e b u then g.multiplicity u e * g.multiplicity u v else 0

/-- The siblings that are skipped as `b` leaves. -/
def skippedLosses (g : Digraph) (e b v : Vertex) : Nat :=
  ∑ u ∈ Finset.range g.size, if g.flags e b u then g.multiplicity u v else 0

theorem count_gains_some (hne : e ≠ b) (v : Vertex) :
    (g.gains e (some b)).count v + g.skippedGains e b v = g.affinity e v := by
  rw [count_gains, affinity, siblings, Vertex.sum_all, skippedGains, Nat.add_assoc,
    ← Finset.sum_add_distrib]
  congr 1
  apply Finset.sum_congr rfl
  intro u _
  by_cases hu : g.outDegree u ≤ 1
  · have hflag : ¬ g.flags e b u = true := by
      rw [flags_iff hne]
      exact fun h => Nat.not_lt.mpr hu (one_lt_outDegree hne h.1 h.2)
    rw [if_pos (.inl hu), if_neg (Nat.not_lt.mpr hu), if_neg hflag, Nat.mul_zero]
  · rw [if_pos (Nat.lt_of_not_le hu)]
    by_cases hb : 0 < g.multiplicity u b
    · rw [if_pos (.inr (by simpa using multiplicity_pos_iff.mp hb)), Nat.mul_zero, Nat.zero_add]
      by_cases he : 0 < g.multiplicity u e
      · rw [if_pos ((flags_iff hne).mpr ⟨he, hb⟩)]
      · rw [Nat.eq_zero_of_not_pos he, Nat.zero_mul, ite_self]
    · have hnot : b ∉ g.targets u := fun hmem => hb (multiplicity_pos_iff.mpr hmem)
      rw [if_neg (by simpa using ⟨Nat.lt_of_not_le hu, hnot⟩), if_neg fun h =>
        hb ((flags_iff hne).mp h).2, Nat.add_zero]

theorem count_losses (hne : e ≠ b) (v : Vertex) :
    (g.losses e b).count v + g.skippedLosses e b v = g.affinity b v := by
  unfold losses
  rw [List.count_append, count_lossesFrom, count_sources, affinity, siblings, Vertex.sum_all,
    skippedLosses]
  -- what is skipped through a flagged source is the one edge that is not taken back
  have hsum : ∀ u, g.lossesThrough (g.flags e b) (g.sources b) v u +
      (if g.flags e b u then g.multiplicity u v else 0) =
      if 1 < g.outDegree u then g.multiplicity u b * g.multiplicity u v else 0 := fun u => by
    unfold lossesThrough
    rw [count_sources]
    by_cases hflag : g.flags e b u = true
    · obtain ⟨he, hb⟩ := (flags_iff hne).mp hflag
      rw [if_pos (one_lt_outDegree hne he hb), if_pos (one_lt_outDegree hne he hb), if_pos hflag,
        if_pos hflag, ← Nat.succ_mul, Nat.succ_eq_add_one, Nat.sub_add_cancel hb]
    · rw [if_neg hflag, if_neg hflag, Nat.sub_zero, Nat.add_zero]
  change g.multiplicity v b + _ + g.multiplicity b v + _ = _
  rw [Nat.add_right_comm (g.multiplicity v b), Nat.add_assoc (g.multiplicity v b + _),
    ← Finset.sum_add_distrib, Finset.sum_congr rfl fun u _ => hsum u]

-- A source of both vertices is skipped for each of its edges to `e` and for one to `b`.
theorem skippedGains_eq (hne : e ≠ b) (v : Vertex) :
    g.skippedGains e b v = g.skippedLosses e b v + g.slideDeficit e b v := by
  unfold skippedGains skippedLosses slideDeficit
  rw [Vertex.sum_all, ← Finset.sum_add_distrib]
  apply Finset.sum_congr rfl
  intro u _
  by_cases hflag : g.flags e b u = true
  · have hboth := (flags_iff hne).mp hflag
    rw [if_pos hflag, if_pos hflag, if_pos hboth, Nat.add_comm, ← Nat.succ_mul,
      Nat.succ_eq_add_one, Nat.sub_add_cancel hboth.1]
  · rw [if_neg hflag, if_neg hflag, if_neg fun h => hflag ((flags_iff hne).mpr h)]

-- Where no list repeats a vertex, a slide has no deficit.
theorem slideDeficit_of_nodup (h : ∀ u, u < g.size → (g.targets u).Nodup) (e b v : Vertex) :
    g.slideDeficit e b v = 0 := by
  unfold slideDeficit
  rw [Vertex.sum_all]
  apply Finset.sum_eq_zero
  intro u hu
  have hle : g.multiplicity u e ≤ 1 :=
    List.nodup_iff_count_le_one.mp (h u (Finset.mem_range.mp hu)) e
  split
  next => rw [Nat.sub_eq_zero_of_le hle, Nat.zero_mul]
  next => rfl

/-! ## Windows -/

@[simp] theorem windowAffinity_nil (g : Digraph) (v : Vertex) : g.windowAffinity [] v = 0 := rfl

@[simp] theorem windowAffinity_cons (g : Digraph) (x : Vertex) (l : List Vertex) (v : Vertex) :
    g.windowAffinity (x :: l) v = g.affinity x v + g.windowAffinity l v := rfl

@[simp] theorem windowAffinity_append (g : Digraph) (l l' : List Vertex) (v : Vertex) :
    g.windowAffinity (l ++ l') v = g.windowAffinity l v + g.windowAffinity l' v := by
  unfold windowAffinity
  rw [List.map_append, List.sum_append]

/-- A slide changes a score by the difference of the affinities, less the deficit. -/
theorem count_gains_add {leaving : Option Vertex} (hne : ∀ b, leaving = some b → e ≠ b)
    (v : Vertex) :
    (g.gains e leaving).count v + g.windowAffinity leaving.toList v +
        leaving.elim 0 (fun b => g.slideDeficit e b v) =
      g.affinity e v + (leaving.elim [] (g.losses e)).count v := by
  cases leaving with
  | none =>
    rw [count_gains_none]
    rfl
  | some b =>
    have hgains := count_gains_some (g := g) (hne b rfl) v
    have hlosses := count_losses (g := g) (hne b rfl) v
    have hskipped := skippedGains_eq (g := g) (hne b rfl) v
    change _ + (g.affinity b v + 0) + g.slideDeficit e b v = _ + (g.losses e b).count v
    omega

theorem count_losses_le {leaving : Option Vertex} (hne : ∀ b, leaving = some b → e ≠ b)
    (v : Vertex) :
    (leaving.elim [] (g.losses e)).count v ≤ g.windowAffinity leaving.toList v := by
  cases leaving with
  | none => exact Nat.le_refl 0
  | some b =>
    have hlosses := count_losses (g := g) (hne b rfl) v
    change (g.losses e b).count v ≤ g.affinity b v + 0
    omega

theorem count_gains_le {leaving : Option Vertex} (hne : ∀ b, leaving = some b → e ≠ b)
    (v : Vertex) : (g.gains e leaving).count v ≤ g.affinity e v := by
  have hgains := count_gains_add (g := g) hne v
  have hlosses := count_losses_le (g := g) hne v
  omega

-- Only vertices are counted.
theorem lt_size_of_mem_gains (hrange : g.InRange) {leaving : Option Vertex}
    (hne : ∀ b, leaving = some b → e ≠ b) (hv : v ∈ g.gains e leaving) : v < g.size := by
  apply Nat.lt_of_not_le
  intro hle
  have hcount := count_gains_le (g := g) hne v
  rw [affinity_eq_zero hrange hle] at hcount
  exact absurd (List.count_pos_iff.mpr hv) (Nat.not_lt.mpr hcount)

theorem lt_size_of_mem_losses (hrange : g.InRange) {leaving : Option Vertex}
    (hne : ∀ b, leaving = some b → e ≠ b) (hv : v ∈ leaving.elim [] (g.losses e)) :
    v < g.size := by
  apply Nat.lt_of_not_le
  intro hle
  have hcount := count_losses_le (g := g) hne v
  have hzero : g.windowAffinity leaving.toList v = 0 := by
    unfold windowAffinity
    apply List.sum_eq_zero
    intro a ha
    obtain ⟨x, -, rfl⟩ := List.mem_map.mp ha
    exact affinity_eq_zero hrange hle x
  rw [hzero] at hcount
  exact absurd (List.count_pos_iff.mpr hv) (Nat.not_lt.mpr hcount)

theorem inDegree_le_traffic (g : Digraph) (v : Vertex) : g.inDegree v ≤ g.traffic v := by
  unfold traffic
  omega

-- No more edges lead from a vertex to distinct ones than it has.
theorem sum_multiplicity_le_outDegree (hl : l.Nodup) (u : Vertex) :
    (l.map (g.multiplicity u)).sum ≤ g.outDegree u := by
  rw [← List.sum_toFinset _ hl, outDegree, ← List.sum_toFinset_count_eq_length]
  apply Finset.sum_le_sum_of_ne_zero
  intro x _ hx
  rw [List.mem_toFinset, ← multiplicity_pos_iff]
  exact Nat.pos_of_ne_zero hx

theorem sum_multiplicity_le_inDegree (hl : l.Nodup) (v : Vertex) :
    (l.map fun x => g.multiplicity x v).sum ≤ g.inDegree v := by
  rw [← List.sum_toFinset _ hl, inDegree, Vertex.sum_all]
  apply Finset.sum_le_sum_of_ne_zero
  intro x _ hx
  rw [Finset.mem_range]
  exact Nat.lt_of_not_le fun hle => hx (multiplicity_of_le hle)

/-- Over distinct vertices, the affinities sum up to no more than the traffic. -/
theorem windowAffinity_le_traffic (hl : l.Nodup) (v : Vertex) :
    g.windowAffinity l v ≤ g.traffic v := by
  -- over distinct vertices, a source has no more pairs of edges than edges for each edge to `v`
  have hsiblings : (l.map fun x => g.siblings x v).sum ≤
      ∑ u ∈ Finset.range g.size, g.multiplicity u v * g.outDegree u := by
    unfold siblings
    simp only [Vertex.sum_all]
    rw [← List.sum_toFinset _ hl, Finset.sum_comm]
    apply Finset.sum_le_sum
    intro u _
    calc ∑ x ∈ l.toFinset,
          (if 1 < g.outDegree u then g.multiplicity u x * g.multiplicity u v else 0)
        ≤ ∑ x ∈ l.toFinset, g.multiplicity u x * g.multiplicity u v := by
          apply Finset.sum_le_sum
          intro x _
          split
          · exact Nat.le_refl _
          · exact Nat.zero_le _
      _ = g.multiplicity u v * (l.map (g.multiplicity u)).sum := by
          rw [← List.sum_toFinset _ hl, ← Finset.sum_mul, Nat.mul_comm]
      _ ≤ g.multiplicity u v * g.outDegree u :=
          Nat.mul_le_mul_left _ (sum_multiplicity_le_outDegree hl u)
  have hfrom := sum_multiplicity_le_outDegree (g := g) hl v
  have hto := sum_multiplicity_le_inDegree (g := g) hl v
  unfold windowAffinity affinity traffic
  rw [List.sum_map_add, List.sum_map_add, Vertex.sum_all]
  omega

end Digraph

end LocalityOrder
