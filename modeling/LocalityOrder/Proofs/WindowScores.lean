import LocalityOrder.Proofs.Affinity
import LocalityOrder.Proofs.RankedList.Count
import LocalityOrder.Proofs.RunQueue.Represents
import LocalityOrder.Proofs.Transpose
import LocalityOrder.WindowScores

/-!
# Sliding the window

A slide counts the vertices in `gains` and takes back those in `losses`, nothing else.  The flags of
skipped siblings are all unset before it and all unset after it: what is flagged as a vertex enters
is a source of the leaving one, which uses the flag up.
-/

namespace LocalityOrder

variable {g : Digraph} {t : Transpose} {e b u v : Vertex} {leaving : Option Vertex}
  {skipped : Table Bool} {flagged : Vertex → Bool}

namespace WindowScores

/-- The table holds the given flag of every vertex. -/
def Flags (skipped : Table Bool) (size : Nat) (flagged : Vertex → Bool) : Prop :=
  skipped.size = size ∧ ∀ w : Vertex, w < size → skipped[w]? = some (flagged w)

namespace Flags

theorem filled (size : Nat) : Flags (.filled size false) size fun _ => false := by
  refine ⟨Table.size_filled _ _, fun w hw => ?_⟩
  rw [Table.getElem?_filled, if_pos hw]

theorem congr {size : Nat} {flagged' : Vertex → Bool} (h : Flags skipped size flagged)
    (heq : ∀ w, flagged' w = flagged w) : Flags skipped size flagged' := funext heq ▸ h

theorem eq_filled {size : Nat} (h : Flags skipped size fun _ => false) :
    skipped = .filled size false := by
  apply Table.ext
  apply Array.ext_getElem?
  intro w
  change skipped[w]? = (Table.filled size false)[w]?
  rw [Table.getElem?_filled]
  split
  next hw => exact h.2 w hw
  next hw => exact Array.getElem?_eq_none (by rw [← h.1] at hw; exact Nat.le_of_not_lt hw)

theorem exists_put {size : Nat} (h : Flags skipped size flagged) (hu : u < size) (value : Bool) :
    ∃ skipped', skipped.put u value = .ok skipped' ∧
      Flags skipped' size (Function.update flagged u value) := by
  obtain ⟨skipped', hput, hsize, hget⟩ := Table.exists_put (h.1.symm ▸ hu) value
  refine ⟨skipped', hput, hsize.trans h.1, fun w hw => ?_⟩
  rw [hget]
  by_cases hwu : u = w
  · rw [if_pos hwu, ← hwu, Function.update_self]
  · rw [if_neg hwu, Function.update_of_ne (Ne.symm hwu), h.2 w hw]

end Flags

/-! ## Entering -/

/-- The siblings of `u` are skipped as a vertex enters. -/
def skips (g : Digraph) (leaving : Option Vertex) (u : Vertex) : Bool :=
  decide (1 < g.outDegree u) && leaving.any fun b => (g.targets u).contains b

theorem enterFrom_eq (hu : u < g.size) (leaving : Option Vertex) (queue : RunQueue)
    (skipped : Table Bool) :
    enterFrom g leaving ⟨queue, skipped⟩ u = increment queue u >>= fun queue =>
      if g.outDegree u ≤ 1 then .ok ⟨queue, skipped⟩
      else if leaving.any fun b => (g.targets u).contains b then
        skipped.put u true >>= fun skipped => .ok ⟨queue, skipped⟩
      else (g.targets u).foldlM increment queue >>= fun queue => .ok ⟨queue, skipped⟩ := by
  simp only [enterFrom, Digraph.neighbors_of_lt hu, ok_bind]
  rfl

namespace Flags

-- a source whose siblings count leaves all flags as they are
theorem of_not_skips (h : Flags skipped g.size flagged) (hskips : skips g leaving u = false) :
    Flags skipped g.size fun w => flagged w || decide (w = u) && skips g leaving w := by
  apply h.congr
  intro w
  by_cases hw : w = u
  · rw [hw, hskips, Bool.and_false, Bool.or_false]
  · rw [decide_eq_false hw, Bool.false_and, Bool.or_false]

-- a source whose siblings are skipped gets its flag set
theorem exists_put_of_skips (h : Flags skipped g.size flagged) (hu : u < g.size)
    (hskips : skips g leaving u = true) :
    ∃ skipped', skipped.put u true = .ok skipped' ∧
      Flags skipped' g.size fun w => flagged w || decide (w = u) && skips g leaving w := by
  obtain ⟨skipped', hput, hflags⟩ := h.exists_put hu true
  refine ⟨skipped', hput, hflags.congr fun w => ?_⟩
  by_cases hw : w = u
  · rw [hw, hskips, decide_eq_true rfl, Bool.true_and, Bool.or_true, Function.update_self]
  · rw [decide_eq_false hw, Bool.false_and, Bool.or_false, Function.update_of_ne hw]

end Flags

theorem exists_enterFrom (leaving : Option Vertex) (h : Flags skipped g.size flagged)
    (hu : u < g.size) :
    ∃ skipped', Flags skipped' g.size (fun w => flagged w || decide (w = u) && skips g leaving w) ∧
      ∀ queue, enterFrom g leaving ⟨queue, skipped⟩ u =
        (g.gainsFrom leaving u).foldlM increment queue >>= fun queue => .ok ⟨queue, skipped'⟩ := by
  unfold Digraph.gainsFrom
  by_cases hdegree : g.outDegree u ≤ 1
  · have hskips : skips g leaving u = false := by
      rw [skips, decide_eq_false (Nat.not_lt.mpr hdegree), Bool.false_and]
    refine ⟨skipped, h.of_not_skips hskips, fun queue => ?_⟩
    rw [enterFrom_eq hu, if_pos (.inl hdegree), List.foldlM_cons, bind_assoc]
    apply bind_congr
    intro queue
    rw [if_pos hdegree]
    rfl
  · by_cases hany : leaving.any (fun b => (g.targets u).contains b) = true
    · have hskips : skips g leaving u = true := by
        rw [skips, decide_eq_true (Nat.lt_of_not_le hdegree), hany, Bool.true_and]
      obtain ⟨skipped', hput, hflags⟩ := h.exists_put_of_skips hu hskips
      refine ⟨skipped', hflags, fun queue => ?_⟩
      rw [enterFrom_eq hu, if_pos (.inr hany), List.foldlM_cons, bind_assoc]
      apply bind_congr
      intro queue
      rw [if_neg hdegree, if_pos hany, hput]
      rfl
    · have hskips : skips g leaving u = false := by
        rw [skips, Bool.eq_false_iff.mpr hany, Bool.and_false]
      refine ⟨skipped, h.of_not_skips hskips, fun queue => ?_⟩
      rw [enterFrom_eq hu, if_neg (not_or.mpr ⟨hdegree, hany⟩), List.foldlM_cons, bind_assoc]
      apply bind_congr
      intro queue
      rw [if_neg hdegree, if_neg hany]

-- Over all edges to the entering vertex, the flags of the skipped sources are set.
theorem exists_enterFrom_foldlM {us : List Vertex} (leaving : Option Vertex)
    (h : Flags skipped g.size flagged) (hus : ∀ u ∈ us, u < g.size) :
    ∃ skipped', Flags skipped' g.size
        (fun w => flagged w || decide (w ∈ us) && skips g leaving w) ∧
      ∀ queue, us.foldlM (enterFrom g leaving) ⟨queue, skipped⟩ =
        (us.flatMap (g.gainsFrom leaving)).foldlM increment queue >>= fun queue =>
          .ok ⟨queue, skipped'⟩ := by
  induction us generalizing skipped flagged with
  | nil => exact ⟨skipped, h.congr fun w => by simp, fun queue => rfl⟩
  | cons u rest ih =>
    obtain ⟨skipped₁, hflags₁, hstep⟩ :=
      exists_enterFrom leaving h (hus u List.mem_cons_self)
    obtain ⟨skipped', hflags, hrest⟩ := ih hflags₁ fun w hw => hus w (List.mem_cons_of_mem u hw)
    refine ⟨skipped', hflags.congr fun w => ?_, fun queue => ?_⟩
    · by_cases hw : w = u
      · simp only [hw, List.mem_cons, true_or, decide_true, Bool.true_and]
        cases skips g leaving u <;> simp
      · simp [hw]
    · rw [List.foldlM_cons, hstep, List.flatMap_cons, List.foldlM_append, bind_assoc, bind_assoc]
      apply bind_congr
      intro queue
      rw [ok_bind, hrest]

/-! ## Leaving -/

theorem leaveFrom_eq (hu : u < g.size) (h : Flags skipped g.size flagged) (queue : RunQueue) :
    leaveFrom g ⟨queue, skipped⟩ u = decrement queue u >>= fun queue =>
      if g.outDegree u ≤ 1 then .ok ⟨queue, skipped⟩
      else if flagged u then skipped.put u false >>= fun skipped => .ok ⟨queue, skipped⟩
      else (g.targets u).foldlM decrement queue >>= fun queue => .ok ⟨queue, skipped⟩ := by
  simp only [leaveFrom, Digraph.neighbors_of_lt hu, Table.get_eq_ok_iff.mpr (h.2 u hu), ok_bind]
  rfl

-- Over the edges to the leaving vertex, each flag is used up.
theorem exists_leaveFrom_foldlM {us : List Vertex} (h : Flags skipped g.size flagged)
    (hus : ∀ u ∈ us, u < g.size) :
    ∃ skipped', Flags skipped' g.size
        (fun w => flagged w && !(decide (w ∈ us) && decide (1 < g.outDegree w))) ∧
      ∀ queue, us.foldlM (leaveFrom g) ⟨queue, skipped⟩ =
        (g.lossesFrom flagged us).foldlM decrement queue >>= fun queue =>
          .ok ⟨queue, skipped'⟩ := by
  induction us generalizing skipped flagged with
  | nil => exact ⟨skipped, h.congr fun w => by simp, fun queue => rfl⟩
  | cons u rest ih =>
    have hu := hus u List.mem_cons_self
    have hrest := fun w hw => hus w (List.mem_cons_of_mem u hw)
    unfold Digraph.lossesFrom
    by_cases hdegree : g.outDegree u ≤ 1
    · obtain ⟨skipped', hflags, heq⟩ := ih h hrest
      refine ⟨skipped', hflags.congr fun w => ?_, fun queue => ?_⟩
      · by_cases hw : w = u
        · simp [hw, Nat.not_lt.mpr hdegree]
        · simp [hw]
      · rw [if_pos hdegree, List.foldlM_cons, List.foldlM_cons, leaveFrom_eq hu h, bind_assoc,
          bind_assoc]
        apply bind_congr
        intro queue
        rw [if_pos hdegree, ok_bind, heq]
    · by_cases hflag : flagged u = true
      · obtain ⟨skipped₁, hput, hflags₁⟩ := h.exists_put hu false
        obtain ⟨skipped', hflags, heq⟩ := ih hflags₁ hrest
        refine ⟨skipped', hflags.congr fun w => ?_, fun queue => ?_⟩
        · by_cases hw : w = u
          · simp [hw, Nat.lt_of_not_le hdegree]
          · simp [hw]
        · rw [if_neg hdegree, if_pos hflag, List.foldlM_cons, List.foldlM_cons, leaveFrom_eq hu h,
            bind_assoc, bind_assoc]
          apply bind_congr
          intro queue
          rw [if_neg hdegree, if_pos hflag, hput, ok_bind, ok_bind, heq]
      · obtain ⟨skipped', hflags, heq⟩ := ih h hrest
        refine ⟨skipped', hflags.congr fun w => ?_, fun queue => ?_⟩
        · by_cases hw : w = u
          · simp [hw, hflag]
          · simp [hw]
        · rw [if_neg hdegree, if_neg hflag, List.cons_append, List.foldlM_cons, List.foldlM_cons,
            leaveFrom_eq hu h, bind_assoc, bind_assoc]
          apply bind_congr
          intro queue
          rw [if_neg hdegree, if_neg hflag, List.foldlM_append, bind_assoc, bind_assoc]
          apply bind_congr
          intro queue
          rw [ok_bind, heq]

/-! ## A whole slide -/

theorem enter_eq (ht : t.IsOf g) (he : e < g.size) (leaving : Option Vertex) :
    ∃ skipped, Flags skipped g.size
        (fun w => decide (w ∈ g.sources e) && skips g leaving w) ∧
      ∀ queue, enter g t leaving ⟨queue, .filled g.size false⟩ e =
        (g.gains e leaving).foldlM increment queue >>= fun queue => .ok ⟨queue, skipped⟩ := by
  obtain ⟨skipped, hflags, heq⟩ := exists_enterFrom_foldlM leaving (Flags.filled g.size)
    fun (u : Vertex) (hu : u ∈ g.sources e) => Digraph.lt_size_of_mem_sources hu
  refine ⟨skipped, hflags.congr fun w => by simp, fun queue => ?_⟩
  unfold enter Digraph.gains
  rw [ht.sourcesOf he, ok_bind, heq, List.foldlM_append, bind_assoc, bind_assoc]
  apply bind_congr
  intro queue
  rw [ok_bind, Digraph.neighbors_of_lt he]
  rfl

theorem leave_eq (ht : t.IsOf g) (hb : b < g.size) (h : Flags skipped g.size (g.flags e b))
    (queue : RunQueue) :
    leave g t ⟨queue, skipped⟩ b =
      (g.losses e b).foldlM decrement queue >>= fun queue =>
        .ok ⟨queue, .filled g.size false⟩ := by
  obtain ⟨skipped', hflags, heq⟩ := exists_leaveFrom_foldlM h
    fun (u : Vertex) (hu : u ∈ g.sources b) => Digraph.lt_size_of_mem_sources hu
  -- a flagged source points at the leaving vertex, so the loop comes to it
  have hall : skipped' = .filled g.size false := by
    refine (hflags.congr fun w => ?_).eq_filled
    cases hw : g.flags e b w with
    | false => rfl
    | true =>
      simp only [Digraph.flags, Bool.and_eq_true, decide_eq_true_eq, List.contains_iff_mem] at hw
      simp [Digraph.mem_sources.mpr hw.2.2, hw.2.1]
  unfold leave Digraph.losses
  rw [ht.sourcesOf hb, ok_bind, heq, List.foldlM_append, bind_assoc, bind_assoc]
  apply bind_congr
  intro queue
  rw [ok_bind, Digraph.neighbors_of_lt hb, hall]
  rfl

/-- A slide counts the gains and takes back the losses, and no flag is left. -/
theorem slide_eq (ht : t.IsOf g) (he : e < g.size) (hb : ∀ b, leaving = some b → b < g.size)
    (queue : RunQueue) :
    slide g t e leaving ⟨queue, .filled g.size false⟩ =
      (g.gains e leaving).foldlM increment queue >>= fun queue =>
        (leaving.elim [] (g.losses e)).foldlM decrement queue >>= fun queue =>
          .ok ⟨queue, .filled g.size false⟩ := by
  obtain ⟨skipped, hflags, heq⟩ := enter_eq ht he leaving
  unfold slide
  rw [heq, bind_assoc]
  apply bind_congr
  intro queue
  cases leaving with
  | none =>
    have hnone : skipped = .filled g.size false :=
      (hflags.congr fun w => by simp [skips]).eq_filled
    rw [hnone]
    rfl
  | some b => exact leave_eq ht (hb b rfl) (hflags.congr fun w => rfl) queue

end WindowScores

/-! ## Slides of ranked lists -/

namespace RankedList

/-- Slides the window over `e`, `leaving` going out of it. -/
def slide (g : Digraph) (e : Vertex) (leaving : Option Vertex) (r : RankedList) :
    Except Fault RankedList := do
  let r ← (g.gains e leaving).foldlM increment r
  (leaving.elim [] (g.losses e)).foldlM decrement r

variable {r r' : RankedList}

-- A slide is a gain and then a loss, which leaves the keys and the order alone.
theorem WellFormed.of_slide (h : r.WellFormed) (hr : r.slide g e leaving = .ok r') :
    r'.WellFormed ∧ ∃ s, s.WellFormed ∧ Gained r s (fun v => (g.gains e leaving).count v) ∧
      r'.order = s.order ∧ r'.removed = s.removed ∧ r'.keys = s.keys ∧
      ∀ v, r'.pendingOf v = s.pendingOf v - (leaving.elim [] (g.losses e)).count v := by
  obtain ⟨s, hgains, hlosses⟩ := bind_eq_ok_iff.mp hr
  obtain ⟨hwf, hgained⟩ := h.of_increments hgains
  obtain ⟨hwf', hrest⟩ := hwf.of_decrements hlosses
  exact ⟨hwf', s, hwf, hgained, hrest⟩

end RankedList

namespace RunQueue.Represents

variable {q : RunQueue} {r : RankedList}

theorem increment_alike (h : q.Represents r) (v : Vertex) :
    Alike Represents (WindowScores.increment q v) (r.increment v) := by
  unfold WindowScores.increment RankedList.increment RunQueue.pendingOf
  rw [h.pending]
  refine .bind_same fun pending _ => ?_
  split
  next => exact h.raise_alike v
  next => exact h.addPending_alike v 1

theorem slide_alike (h : q.Represents r) (ht : t.IsOf g) (he : e < g.size)
    (hb : ∀ b, leaving = some b → b < g.size) :
    Alike (fun s r' => s.queue.Represents r' ∧ s.skipped = .filled g.size false)
      (WindowScores.slide g t e leaving ⟨q, .filled g.size false⟩) (r.slide g e leaving) := by
  rw [WindowScores.slide_eq ht he hb, RankedList.slide]
  refine (Alike.foldlM (fun v _ _ _ h => h.increment_alike v) h).bind fun q₁ r₁ h₁ => ?_
  rw [← bind_pure (List.foldlM RankedList.decrement r₁ _)]
  refine (Alike.foldlM (fun v _ _ _ h => h.addPending_alike v (-1)) h₁).bind fun q₂ r₂ h₂ => ?_
  exact .ok ⟨h₂, rfl⟩

end RunQueue.Represents

end LocalityOrder
