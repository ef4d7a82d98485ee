import LocalityOrder.Proofs.Layout
import LocalityOrder.Proofs.Renumber

/-!
# Laying out again and again

A layout renumbers its graph, and the renumbered graph can be laid out in turn, under any window.
However often this is done, what results is the first graph under the composition of all the
renumberings so far, and every step is undone by the inverse of its renumbering.
-/

namespace LocalityOrder

namespace Renumbering

/-- Renumberings of `n` vertices, one after the other. -/
def compose (n : Nat) (ps : List Renumbering) : Except Error Renumbering :=
  ps.foldlM andThen (identity n)

end Renumbering

namespace Digraph

/-- Lays out a graph and renumbers it accordingly, again for each of the settings.  Each step is
listed with its renumbering and the graph it leads to. -/
def reorderedThrough (g : Digraph) : List Settings → Except Error (List (Renumbering × Digraph))
  | [] => .ok []
  | settings :: rest => do
      let (p, h) ← g.reordered settings
      return (p, h) :: (← h.reorderedThrough rest)

/-- The graph that the first `count` steps from `g` lead to. -/
def afterSteps (g : Digraph) (steps : List (Renumbering × Digraph)) : (count : Nat) → Digraph
  | 0 => g
  | count + 1 => (steps[count]?.map Prod.snd).getD g

variable {g h : Digraph} {p q r : Renumbering} {settings : Settings} {windows : List Settings}
  {steps : List (Renumbering × Digraph)}

/-! ## One step -/

theorem reordered_eq_ok_iff :
    g.reordered settings = .ok (p, h) ↔
      g.localityOrder settings = .ok p ∧ g.renumber p = .ok h := by
  unfold reordered
  constructor
  · intro hg
    obtain ⟨p', hp, h₁⟩ := bind_eq_ok_iff.mp hg
    obtain ⟨h', hh, h₂⟩ := bind_eq_ok_iff.mp h₁
    cases h₂
    exact ⟨hp, mapError_eq_ok_iff.mp hh⟩
  · rintro ⟨hp, hh⟩
    rw [hp, ok_bind, mapError_eq_ok_iff.mpr hh, ok_bind, pure_eq_ok]

/-- What lays out a graph can renumber it. -/
theorem exists_reordered (hp : g.localityOrder settings = .ok p) :
    ∃ h, g.reordered settings = .ok (p, h) := by
  obtain ⟨t, -, ht, -⟩ := of_localityOrder hp
  obtain ⟨h, hh⟩ := exists_renumber (Transpose.isOf_of_ofDigraph ht).inRange
    (size_of_localityOrder hp)
  exact ⟨h, reordered_eq_ok_iff.mpr ⟨hp, hh⟩⟩

/-! ## Many steps -/

theorem length_of_reorderedThrough (hg : g.reorderedThrough windows = .ok steps) :
    steps.length = windows.length := by
  induction windows generalizing g steps with
  | nil =>
    cases hg
    rfl
  | cons settings rest ih =>
    obtain ⟨⟨p, h⟩, -, h₁⟩ := bind_eq_ok_iff.mp hg
    obtain ⟨steps, hsteps, h₂⟩ := bind_eq_ok_iff.mp h₁
    cases h₂
    rw [List.length_cons, List.length_cons, ih hsteps]

-- The induction is on the steps, from any graph that already is a renumbering of the first one.
theorem of_reorderedThrough {first : Digraph} {k : Nat} (hfirst : first.renumber r = .ok g)
    (hg : g.reorderedThrough windows = .ok steps) (hk : steps[k]? = some (p, h)) :
    (∃ r', ((steps.take (k + 1)).map Prod.fst).foldlM Renumbering.andThen r = .ok r' ∧
      first.renumber r' = .ok h) ∧ h.renumber p.inverse = .ok (g.afterSteps steps k) := by
  induction windows generalizing g r steps k with
  | nil =>
    cases hg
    cases hk
  | cons settings rest ih =>
    obtain ⟨⟨p₁, h₁⟩, hstep, hg₁⟩ := bind_eq_ok_iff.mp hg
    obtain ⟨steps₁, hsteps₁, heq⟩ := bind_eq_ok_iff.mp hg₁
    cases heq
    have hh₁ := (reordered_eq_ok_iff.mp hstep).2
    obtain ⟨hsize₁, -⟩ := of_renumber hh₁
    obtain ⟨hsize, -, hsizeg, -⟩ := of_renumber hfirst
    have hsame : r.size = p₁.size := by omega
    obtain ⟨r₁, hr₁, -⟩ := Renumbering.exists_andThen hsame
    have hfirst₁ : first.renumber r₁ = .ok h₁ := by
      rw [← renumber_andThen hfirst hr₁ hsame, hh₁]
    cases k with
    | zero =>
      cases hk
      refine ⟨⟨r₁, ?_, hfirst₁⟩, renumber_inverse hh₁⟩
      rw [List.take_succ_cons, List.take_zero, List.map_singleton, List.foldlM_cons, hr₁]
      rfl
    | succ k =>
      obtain ⟨⟨r', hr', hrenumber⟩, hundone⟩ := ih hfirst₁ hsteps₁ hk
      refine ⟨⟨r', ?_, hrenumber⟩, ?_⟩
      · rw [List.take_succ_cons, List.map_cons, List.foldlM_cons, hr₁]
        exact hr'
      · rw [hundone]
        cases k with
        | zero => rfl
        | succ k =>
          have hlt : k + 1 < steps₁.length :=
            Nat.lt_of_succ_lt_succ (List.getElem?_eq_some_iff.mp hk).1
          simp [afterSteps, Nat.lt_of_succ_lt hlt]

/-- Within the limits that let a graph be laid out, it can be laid out again and again. -/
theorem exists_reorderedThrough (hsize : g.size < 4294967294) (hcount : g.edgeCount ≤ 4294967295)
    (hrange : g.InRange) (htraffic : ∀ v, g.traffic v < 1073741824)
    (hwindows : ∀ settings ∈ windows, 1 ≤ settings.window) :
    ∃ steps, g.reorderedThrough windows = .ok steps := by
  induction windows generalizing g with
  | nil => exact ⟨[], rfl⟩
  | cons settings rest ih =>
    have hwindow : 1 ≤ settings.window := hwindows settings List.mem_cons_self
    obtain ⟨p, hp⟩ := exists_localityOrder hsize hcount hrange htraffic hwindow
    obtain ⟨h, hstep⟩ := exists_reordered hp
    -- the limits count edges, so they hold of the renumbered graph too
    have hh := (reordered_eq_ok_iff.mp hstep).2
    have hsize' : h.size = g.size := (of_renumber hh).2.2.1
    have htraffic' : ∀ v, h.traffic v < 1073741824 := fun v => by
      rw [← p.toNew_toOld v, traffic_of_renumber hh]
      exact htraffic _
    have hrest : ∀ settings ∈ rest, 1 ≤ settings.window := fun settings hmem =>
      hwindows settings (List.mem_cons_of_mem _ hmem)
    obtain ⟨steps, hsteps⟩ := ih (hsize' ▸ hsize) (edgeCount_of_renumber hh ▸ hcount)
      (inRange_renumber hh) htraffic' hrest
    refine ⟨(p, h) :: steps, ?_⟩
    rw [reorderedThrough, hstep, ok_bind]
    dsimp only
    rw [hsteps, ok_bind, pure_eq_ok]

/-! ## The action of renumberings -/

/-- Renumberings of the size of a graph act on it.  They succeed just if its edges are in range, a
vertex keeps its list under the new ids, and identity, composition and inverse do what their names
say.  So a graph that is laid out and renumbered again and again remains the first one under the
composed renumbering, and each step can be taken back; within the limits of layouts this never
fails. -/
theorem renumber_acts (g : Digraph) :
    (∀ p, p.size = g.size → ((∃ h, g.renumber p = .ok h) ↔ g.InRange)) ∧
    (∀ p h, g.renumber p = .ok h → h.size = g.size ∧
      ∀ v list, g.neighbors v = .ok list → ∃ new moved, p.newOf v = .ok new ∧
        list.mapM p.newOf = .ok moved ∧ h.neighbors new = .ok moved) ∧
    (g.InRange → g.renumber (.identity g.size) = .ok g ∧
      ∀ p, p.size = g.size → ∃ h, g.renumber p = .ok h ∧ h.renumber p.inverse = .ok g ∧
        ∀ q, q.size = g.size → ∃ r k, p.andThen q = .ok r ∧ h.renumber q = .ok k ∧
          g.renumber r = .ok k) ∧
    (∀ settings p, g.localityOrder settings = .ok p → ∃ h, g.reordered settings = .ok (p, h)) ∧
    (∀ windows steps, g.reorderedThrough windows = .ok steps → steps.length = windows.length ∧
      ∀ k p h, steps[k]? = some (p, h) →
        (∃ r, Renumbering.compose g.size ((steps.take (k + 1)).map Prod.fst) = .ok r ∧
          g.renumber r = .ok h) ∧
        h.renumber p.inverse = .ok (g.afterSteps steps k)) ∧
    (g.size < 4294967294 → g.edgeCount ≤ 4294967295 → g.InRange →
      (∀ v, v < g.size → g.traffic v < 1073741824) → ∀ windows : List Settings,
        (∀ settings ∈ windows, 1 ≤ settings.window) →
        ∃ steps, g.reorderedThrough windows = .ok steps) := by
  refine ⟨fun p hp => ⟨?_, fun hrange => exists_renumber hrange hp⟩, fun p h hg => ?_,
    fun hrange => ⟨renumber_identity hrange, fun p hp => ?_⟩, fun _ _ => exists_reordered,
    fun windows steps hg => ⟨length_of_reorderedThrough hg, fun k p h hk => ?_⟩,
    fun hsize hcount hrange htraffic windows hwindows => ?_⟩
  · rintro ⟨h, hg⟩
    exact (inRange_of_renumber hg).2
  · obtain ⟨hsize, hrange, hsize', -⟩ := of_renumber hg
    refine ⟨hsize', fun v list hlist => ?_⟩
    obtain ⟨hv, rfl⟩ := neighbors_eq_ok_iff.mp hlist
    refine ⟨p.toNew v, (g.targets v).map p.toNew, Renumbering.newOf_of_lt (hsize ▸ hv),
      mapM_newOf_targets hrange hsize v, neighbors_eq_ok_iff.mpr ⟨?_, targets_of_renumber hg v⟩⟩
    rwa [hsize', ← hsize, p.toNew_lt_iff, hsize]
  · obtain ⟨h, hg⟩ := exists_renumber hrange hp
    refine ⟨h, hg, renumber_inverse hg, fun q hq => ?_⟩
    have hsize : h.size = g.size := (of_renumber hg).2.2.1
    obtain ⟨r, hr, -⟩ := Renumbering.exists_andThen (hp.trans hq.symm)
    obtain ⟨k, hk⟩ := exists_renumber (inRange_renumber hg) (hq.trans hsize.symm)
    exact ⟨r, k, hr, hk, renumber_andThen hg hr (hp.trans hq.symm) ▸ hk⟩
  · cases windows with
    | nil =>
      cases hg
      cases hk
    | cons settings rest =>
      obtain ⟨⟨p₁, h₁⟩, hstep, -⟩ := bind_eq_ok_iff.mp hg
      have hrange : g.InRange := (inRange_of_renumber (reordered_eq_ok_iff.mp hstep).2).2
      exact of_reorderedThrough (renumber_identity hrange) hg hk
  · refine exists_reorderedThrough hsize hcount hrange (fun v => ?_) hwindows
    by_cases hv : v < g.size
    · exact htraffic v hv
    · rw [traffic_eq_zero hrange (Nat.not_lt.mp hv)]
      decide

set_option maxRecDepth 100000 in
/-- A cycle with a repeated edge is rotated, rotated again, taken back, and laid out twice. -/
theorem renumber_acts_of_rotation :
    ∃ p h r k steps, Renumbering.ofOrder [2, 0, 1] = .ok p ∧
      (ofLists [[1, 1], [2], [0]]).renumber p = .ok h ∧ h.lists.toList = [[1], [2, 2], [0]] ∧
      h.renumber p.inverse = .ok (ofLists [[1, 1], [2], [0]]) ∧ p.andThen p = .ok r ∧
      h.renumber p = .ok k ∧ (ofLists [[1, 1], [2], [0]]).renumber r = .ok k ∧
      (ofLists [[1, 1], [2], [0]]).reorderedThrough [⟨1⟩, ⟨2⟩] = .ok steps ∧
      steps.length = 2 := by
  obtain ⟨hiff, -, haction, -, hchain, hwithin⟩ := renumber_acts (ofLists [[1, 1], [2], [0]])
  obtain ⟨x, hrun, hx⟩ := exists_eq_ok (f := id) (b := (3, [[1], [2, 2], [0]]))
    (x := (Renumbering.ofOrder [2, 0, 1]).mapError Error.rejected >>= fun p =>
      ((ofLists [[1, 1], [2], [0]]).renumber p).mapError Error.fault >>= fun h =>
        .ok (p.size, h.lists.toList)) (by cbv)
  cases hx
  obtain ⟨p, hp, h₁⟩ := bind_eq_ok_iff.mp hrun
  obtain ⟨h, hh, h₂⟩ := bind_eq_ok_iff.mp h₁
  rw [mapError_eq_ok_iff] at hp hh
  obtain ⟨hsize, hlists⟩ := Prod.mk.inj (Except.ok.inj h₂)
  obtain ⟨-, hall⟩ := haction ((hiff p hsize).mp ⟨h, hh⟩)
  obtain ⟨h', hh', hback, hcompose⟩ := hall p hsize
  cases hh.symm.trans hh'
  obtain ⟨r, k, hr, hk, hk'⟩ := hcompose p hsize
  obtain ⟨steps, hsteps⟩ := hwithin (by decide) (by decide) (by decide) (by decide) [⟨1⟩, ⟨2⟩]
    (by decide)
  exact ⟨p, h, r, k, steps, hp, hh, hlists, hback, hr, hk, hk', hsteps, (hchain _ _ hsteps).1⟩

end Digraph

end LocalityOrder
