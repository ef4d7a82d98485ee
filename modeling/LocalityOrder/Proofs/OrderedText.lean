import LocalityOrder.Proofs.Command
import LocalityOrder.Proofs.Renumber

/-!
# Texts with an order in front

Labels that stand in front of a text, one on a line, are rows without targets.  They leave the
targets of all labels as they are but fix the numbers of the labels, so a text with the new order of
its own labels in front is read as the renumbered graph.
-/

namespace LocalityOrder

/-! ## Rows without targets -/

namespace LabeledGraph

open Text (Row rowsOf)

variable {l l' : LabeledGraph} {p : Renumbering} {rows : List Row} {order : List String}
variable {moved : Array String}

/-- Rows with these heads and no targets. -/
def headRows (order : List String) : List Row := order.map fun label => ⟨label, []⟩

theorem rowsOf_unlines_append
    (h : ∀ label ∈ order, Text.IsWord label ∧ label.toList.head? ≠ some '#') (text : String) :
    rowsOf (Command.unlines order ++ text) = headRows order ++ rowsOf text := by
  have hrows : order.filterMap Row.ofLine? = headRows order := by
    rw [headRows, ← List.filterMap_eq_map]
    apply List.filterMap_congr
    intro label hlabel
    exact (h label hlabel).1.ofLine?_eq (h label hlabel).2
  have hline : ∀ label ∈ order, '\n' ∉ label.toList := fun label hlabel =>
    (h label hlabel).1.newline_notMem
  rw [rowsOf, Text.pieces_unlines_append hline, List.filterMap_append, hrows]
  rfl

theorem eraseDups_of_nodup : ∀ {words : List String}, words.Nodup → words.eraseDups = words
  | [], _ => rfl
  | word :: rest, h => by
    obtain ⟨hword, hrest⟩ := List.nodup_cons.mp h
    have hother : rest.filter (fun other => !other == word) = rest := by
      rw [List.filter_eq_self]
      intro other hmem
      have hne : other ≠ word := fun heq => hword (heq ▸ hmem)
      simpa using hne
    rw [List.eraseDups_cons, hother, eraseDups_of_nodup hrest]

theorem labelsOf_headRows_append (hnodup : order.Nodup) (hperm : order.Perm (labelsOf rows)) :
    labelsOf (headRows order ++ rows) = order := by
  have hheads : (headRows order).flatMap Row.words = order := by
    rw [headRows, List.flatMap_map]
    exact List.flatMap_singleton' order
  have hnone : (rows.flatMap Row.words).removeAll order = [] := by
    rw [List.removeAll, List.filter_eq_nil_iff]
    intro word hword
    have hmem : word ∈ order := hperm.mem_iff.mpr (List.mem_eraseDups.mpr hword)
    simpa using hmem
  rw [labelsOf, List.flatMap_append, hheads, List.eraseDups_append, eraseDups_of_nodup hnodup,
    hnone, List.eraseDups_nil, List.append_nil]

theorem targetsOf_headRows_append (order : List String) (rows : List Row) (head : String) :
    targetsOf (headRows order ++ rows) head = targetsOf rows head := by
  have hnone : targetsOf (headRows order) head = [] := by
    rw [targetsOf, List.flatMap_eq_nil_iff]
    intro row hrow
    obtain ⟨label, -, rfl⟩ := List.mem_map.mp (List.mem_of_mem_filter hrow)
    rfl
  rw [targetsOf, List.filter_append, List.flatMap_append]
  show targetsOf (headRows order) head ++ targetsOf rows head = _
  rw [hnone, List.nil_append]

/-! ## The renumbered graph -/

namespace IsOf

theorem labelsOf_order_append (hl : l.IsOf rows) (hmoved : p.apply l.labels.names = .ok moved) :
    labelsOf (headRows moved.toList ++ rows) = moved.toList := by
  have hperm : moved.toList.Perm (labelsOf rows) := hl.names ▸ Renumbering.perm_of_apply hmoved
  exact labelsOf_headRows_append (hperm.nodup_iff.mpr (nodup_labelsOf rows)) hperm

-- So there are no more labels than before.
theorem fits_order_append (hl : l.IsOf rows) (hmoved : p.apply l.labels.names = .ok moved) :
    (labelsOf (headRows moved.toList ++ rows)).length ≤ Vertex.largest + 1 := by
  rw [hl.labelsOf_order_append hmoved, (Renumbering.perm_of_apply hmoved).length_eq, hl.names]
  exact hl.fits

-- The number of a label moves with its vertex.
theorem idOf_order_append (hl : l.IsOf rows) (hmoved : p.apply l.labels.names = .ok moved)
    {label : String} (hlabel : label ∈ labelsOf rows) :
    idOf (headRows moved.toList ++ rows) label = p.toNew (idOf rows label) := by
  rw [idOf, hl.labelsOf_order_append hmoved]
  apply Renumbering.idxOf_of_apply hmoved l.labels.nodup_names
  rw [hl.getElem?_names]
  exact List.getElem?_idxOf hlabel

theorem targets_order_append (hl : l.IsOf rows) (hl' : l'.IsOf (headRows moved.toList ++ rows))
    (hmoved : p.apply l.labels.names = .ok moved) {v : Nat} (hv : p.toOld v < l.graph.size) :
    l'.graph.targets v = (l.graph.targets (p.toOld v)).map p.toNew := by
  obtain ⟨label, hlabel, hold⟩ := hl.exists_label hv
  have hnew : idOf (headRows moved.toList ++ rows) label = v := by
    rw [hl.idOf_order_append hmoved hlabel, hold, p.toNew_toOld]
  have hlabel' : label ∈ labelsOf (headRows moved.toList ++ rows) := by
    rw [hl.labelsOf_order_append hmoved, (Renumbering.perm_of_apply hmoved).mem_iff, hl.names]
    exact hlabel
  rw [← hold, hl.targets label hlabel, ← hnew, hl'.targets label hlabel',
    targetsOf_headRows_append, List.map_map]
  apply List.map_congr_left
  intro target htarget
  exact hl.idOf_order_append hmoved (mem_labelsOf_of_mem_targetsOf htarget)

theorem renumber_order_append (hl : l.IsOf rows) (hl' : l'.IsOf (headRows moved.toList ++ rows))
    (hmoved : p.apply l.labels.names = .ok moved) (hsize : p.size = l.graph.size) :
    l'.labels.names = moved ∧ l.graph.renumber p = .ok l'.graph := by
  have hnames : l'.labels.names.toList = moved.toList :=
    hl'.names.trans (hl.labelsOf_order_append hmoved)
  have hsize' : l'.graph.size = l.graph.size := by
    rw [← hl'.size_names, ← Array.length_toList, hnames, Array.length_toList,
      (Renumbering.of_apply hmoved).2.1, hsize]
  refine ⟨Array.toList_inj.mp hnames, ?_⟩
  rw [Digraph.renumber_eq_ok_iff]
  refine ⟨hsize, hl.inRange, hsize', fun v => ?_⟩
  by_cases hv : v < l.graph.size
  · exact hl.targets_order_append hl' hmoved (hsize ▸ Renumbering.toOld_lt (hsize ▸ hv))
  · have hle : l.graph.size ≤ v := Nat.not_lt.mp hv
    rw [Renumbering.toOld_of_le (hsize ▸ hle), Digraph.targets_of_le hle,
      Digraph.targets_of_le (hsize' ▸ hle), List.map_nil]

end IsOf

open Command in
/-- What is printed for a text whose labels are no comments can be put in front of it: what is read
then is the renumbered graph, with the labels numbered in the order that was printed. -/
theorem ofBytes_order_append {bytes : ByteArray} {settings : Settings} (hl : ofBytes bytes = .ok l)
    (hlabels : ∀ label ∈ l.labels.names, label.toList.head? ≠ some '#')
    (hp : l.graph.localityOrder settings = .ok p) :
    ∃ output moved l',
      (∀ (read : Reader) sourceOf path arguments, sourceOf path = .content bytes →
        read arguments = .ok ⟨path, settings, false⟩ →
        outcomeOf read sourceOf arguments = ⟨0, output, ""⟩) ∧
      p.apply l.labels.names = .ok moved ∧ ofBytes (output.toUTF8 ++ bytes) = .ok l' ∧
      l'.labels.names = moved ∧
      (∀ (v : Nat) label, moved[v]? = some label → l'.labels.find? label = some v) ∧
      l.graph.renumber p = .ok l'.graph := by
  obtain ⟨text, rfl, hof⟩ := exists_text_of_ofBytes hl
  obtain ⟨moved, hmoved⟩ := exists_apply_names hof hp
  have hword : ∀ label ∈ moved.toList, Text.IsWord label ∧ label.toList.head? ≠ some '#' := by
    intro label hlabel
    have hmem := (Renumbering.perm_of_apply hmoved).mem_iff.mp hlabel
    exact ⟨isWord_of_mem_labelsOf (hof.names ▸ hmem), hlabels label (Array.mem_toList_iff.mp hmem)⟩
  have hrows := rowsOf_unlines_append hword text
  obtain ⟨l', hl', hof'⟩ := exists_ofBytes (hrows ▸ hof.fits_order_append hmoved)
  rw [hrows] at hof'
  obtain ⟨hnames, hgraph⟩ := hof.renumber_order_append hof' hmoved (Digraph.size_of_localityOrder hp)
  refine ⟨unlines moved.toList, moved, l', ?_, hmoved, ?_, hnames, ?_, hgraph⟩
  · intro read sourceOf path arguments hpath hread
    have hsource : ofSource (sourceOf path) = .ok l := hpath ▸ hl
    rw [outcomeOf_of_read hread, Request.outcome, answer_of_localityOrder hsource hp hmoved]
    rfl
  · rw [← hl']
    exact congrArg ofBytes String.toByteArray_append.symm
  · intro v label hv
    rw [Labels.find?_eq_some_iff, hnames]
    exact hv

open Command in
set_option maxRecDepth 100000 in
/-- A comment, a label that heads two rows with another between them, one that is a target only, and
one without edges. -/
theorem ofBytes_order_append_of_pairs :
    ∃ l p l', ofBytes "# pairs\n b a\nc b b\n\nd\nb c".toUTF8 = .ok l ∧
      l.labels.names = #["b", "a", "c", "d"] ∧ l.graph.localityOrder ⟨2⟩ = .ok p ∧
      outcome sampleSources ["pairs", "-w", "2"] = ⟨0, "b\nc\na\nd\n", ""⟩ ∧
      ofBytes ("b\nc\na\nd\n".toUTF8 ++ "# pairs\n b a\nc b b\n\nd\nb c".toUTF8) = .ok l' ∧
      p.apply l.labels.names = .ok l'.labels.names ∧ l.graph.renumber p = .ok l'.graph := by
  obtain ⟨l, hl, hread⟩ := exists_eq_ok (f := fun l => (l.labels.names, l.graph))
    (b := (#["b", "a", "c", "d"], .ofLists [[1, 2], [], [0, 0], []]))
    (x := ofBytes "# pairs\n b a\nc b b\n\nd\nb c".toUTF8) (by cbv)
  obtain ⟨hnames, hgraph⟩ := Prod.mk.inj hread
  obtain ⟨p, hp, -⟩ := exists_eq_ok (f := fun p => p.newToOld.toList) (b := [0, 2, 1, 3])
    (x := (Digraph.ofLists [[1, 2], [], [0, 0], []]).localityOrder ⟨2⟩) (by cbv)
  rw [← hgraph] at hp
  have hlabels : ∀ label ∈ l.labels.names, label.toList.head? ≠ some '#' := by
    rw [hnames]
    decide
  obtain ⟨output, moved, l', hrun, hmoved, hl', rfl, -, hrenumber⟩ :=
    ofBytes_order_append hl hlabels hp
  have hprinted : outcome sampleSources ["pairs", "-w", "2"] = ⟨0, "b\nc\na\nd\n", ""⟩ := by cbv
  have houtput := hrun readArguments sampleSources "pairs" ["pairs", "-w", "2"] (by cbv) (by cbv)
  obtain ⟨-, rfl, -⟩ := Outcome.mk.inj (houtput.symm.trans hprinted)
  exact ⟨l, p, l', hl, hnames, hp, hprinted, hl', hmoved, hrenumber⟩

end LabeledGraph

end LocalityOrder
