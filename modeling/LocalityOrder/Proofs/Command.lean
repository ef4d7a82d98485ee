import LocalityOrder.Proofs.Grammar
import LocalityOrder.Proofs.Layout
import LocalityOrder.Proofs.Renumbering.Ids

/-!
# What the command prints

Both answers describe one order of the labels: one lists the labels in this order, the other gives
for each label its place in it.  A source without a text, or an empty window, leads to a refusal,
and then nothing is printed but the reason; the source is looked at first.  All this holds however
the arguments are read that ask for it.
-/

namespace LocalityOrder.Command

open LabeledGraph (labelsOf ofSource)
open Text (Tells tells_iff)

variable {l : LabeledGraph} {p : Renumbering} {moved : Array String} {rows : List Text.Row}
variable {source : Source} {settings : Settings} {request : Request} {cause : Rejection}

/-! ## The lines -/

theorem exists_apply_names (hof : l.IsOf rows) (hp : l.graph.localityOrder settings = .ok p) :
    ∃ moved, p.apply l.labels.names = .ok moved :=
  Renumbering.exists_apply (hof.size_names.trans (Digraph.size_of_localityOrder hp).symm)

theorem orderLines_eq (h : p.apply l.labels.names = .ok moved) : orderLines l p = moved.toList :=
  (Renumbering.toList_of_apply h).symm

theorem placeLines_eq (h : p.apply l.labels.names = .ok moved) :
    placeLines l p = .ok (l.labels.names.toList.map fun label =>
      label ++ " " ++ Nat.repr (moved.toList.idxOf label)) := by
  have hsize := (Renumbering.of_apply h).1
  have hline : ∀ entry ∈ l.labels.names.toList.zipIdx,
      (do return entry.1 ++ " " ++ Nat.repr (← p.newOf entry.2) : Except Fault String) =
        .ok (entry.1 ++ " " ++ Nat.repr (moved.toList.idxOf entry.1)) := by
    rintro ⟨label, old⟩ hentry
    have hlabel : l.labels.names[old]? = some label := by
      rw [← Array.getElem?_toList]
      exact List.mk_mem_zipIdx_iff_getElem?.mp hentry
    have hold : old < p.size := hsize ▸ (Array.getElem?_eq_some_iff.mp hlabel).1
    rw [Renumbering.newOf_of_lt hold, ok_bind,
      Renumbering.idxOf_of_apply h l.labels.nodup_names hlabel, pure_eq_ok]
  have hlines : (l.labels.names.toList.zipIdx.map fun entry =>
      entry.1 ++ " " ++ Nat.repr (moved.toList.idxOf entry.1)) =
        l.labels.names.toList.map fun label =>
          label ++ " " ++ Nat.repr (moved.toList.idxOf label) := by
    rw [← List.zipIdx_map_fst 0 l.labels.names.toList, List.map_map, List.zipIdx_map_fst]
    rfl
  rw [← hlines]
  exact mapM_eq_ok hline

/-! ## The answers -/

theorem answer_of_localityOrder {path : String} {inverse : Bool} (hl : ofSource source = .ok l)
    (hp : l.graph.localityOrder settings = .ok p) (h : p.apply l.labels.names = .ok moved) :
    (Request.mk path settings inverse).answer source = .ok (unlines
      (if inverse then l.labels.names.toList.map fun label =>
        label ++ " " ++ Nat.repr (moved.toList.idxOf label)
      else moved.toList)) := by
  cases inverse with
  | true =>
    rw [Request.answer, hl, ok_bind]
    dsimp only
    rw [hp, ok_bind, if_pos rfl, mapError_eq_ok_iff.mpr (placeLines_eq h), ok_bind, pure_eq_ok,
      if_pos rfl]
  | false =>
    rw [Request.answer, hl, ok_bind]
    dsimp only
    rw [hp, ok_bind, if_neg (by decide), orderLines_eq h, pure_eq_ok, if_neg (by decide)]

theorem answer_of_ofSource_eq_error {e : Error} (h : ofSource source = .error e) :
    request.answer source = .error e := by
  rw [Request.answer, h]
  rfl

theorem answer_of_localityOrder_eq_error {e : Error} (hl : ofSource source = .ok l)
    (he : l.graph.localityOrder request.settings = .error e) :
    request.answer source = .error e := by
  rw [Request.answer, hl, ok_bind, he]
  rfl

/-- All that is refused is a source without a text and an empty window. -/
theorem refusal_of_answer (h : request.answer source = .error (.rejected cause)) :
    (∃ unreadable, cause = .unreadable unreadable) ∨ cause = .invalidWindow := by
  have hfault : ∀ fault, ofSource source ≠ .error (.fault fault) := fun fault hs => by
    cases h.symm.trans (answer_of_ofSource_eq_error hs)
  cases htext : source.text with
  | error unreadable =>
    rcases LabeledGraph.ofSource_of_text_eq_error htext with hs | ⟨fault, hs⟩
    · cases h.symm.trans (answer_of_ofSource_eq_error hs)
      exact .inl ⟨unreadable, rfl⟩
    · exact absurd hs (hfault fault)
  | ok text =>
    obtain ⟨l, hl, hof⟩ := (LabeledGraph.ofSource_of_text htext).resolve_right
      fun ⟨fault, hs⟩ => hfault fault hs
    cases hp : l.graph.localityOrder request.settings with
    | ok p =>
      obtain ⟨moved, hmoved⟩ := exists_apply_names hof hp
      cases h.symm.trans (answer_of_localityOrder hl hp hmoved)
    | error e =>
      cases h.symm.trans (answer_of_localityOrder_eq_error hl hp)
      by_cases hw : request.settings.window = 0
      · cases hp.symm.trans (Digraph.localityOrder_of_window_eq_zero hw)
        exact .inr rfl
      · obtain ⟨fault, hfault⟩ := Digraph.exists_fault_of_localityOrder hof.inRange (by omega) hp
        cases hfault

/-! ## The runs -/

theorem outcome_of_refusal (h : request.answer source = .error (.rejected cause)) :
    request.outcome source = ⟨1, "", "error: " ++ cause.message ++ "\n"⟩ := by
  rw [Request.outcome, h]

theorem reason_of_unreadable (cause : Unreadable) :
    "error: " ++ (Rejection.unreadable cause).message = "error: I/O error: " ++ cause.message := by
  have hreason : "error: I/O error: " = "error: " ++ "I/O error: " := rfl
  rw [hreason]
  exact String.append_assoc.symm

theorem outcomeOf_of_read {read : Reader} {sourceOf : String → Source} {arguments : List String}
    (h : read arguments = .ok request) :
    outcomeOf read sourceOf arguments = request.outcome (sourceOf request.path) := by
  rw [outcomeOf, h]

/-- The graph of the source is read and laid out without a fault. -/
def Faultless (source : Source) (settings : Settings) : Prop :=
  ∀ fault, (ofSource source >>= fun l => l.graph.localityOrder settings) ≠ .error (.fault fault)

/-- All runs for this path and these settings end as given, with places and without. -/
def RunsEnd (sourceOf : String → Source) (path : String) (settings : Settings)
    (ending : (inverse : Bool) → Outcome) : Prop :=
  ∀ (read : Reader) arguments inverse, read arguments = .ok ⟨path, settings, inverse⟩ →
    outcomeOf read sourceOf arguments = ending inverse

theorem Faultless.ofSource_eq {cause : Unreadable} (h : Faultless source settings)
    (hcause : source.text = .error cause) :
    ofSource source = .error (.rejected (.unreadable cause)) := by
  refine (LabeledGraph.ofSource_of_text_eq_error hcause).resolve_right ?_
  rintro ⟨fault, hs⟩
  exact h fault (by rw [hs, error_bind])

theorem Faultless.exists_ofSource {text : String} (h : Faultless source settings)
    (htext : source.text = .ok text) :
    ∃ l, ofSource source = .ok l ∧ l.IsOf (Text.rowsOf text) := by
  refine (LabeledGraph.ofSource_of_text htext).resolve_right ?_
  rintro ⟨fault, hs⟩
  exact h fault (by rw [hs, error_bind])

theorem Faultless.exists_localityOrder (h : Faultless source settings)
    (hl : ofSource source = .ok l) (hof : l.IsOf rows) (hw : 1 ≤ settings.window) :
    ∃ p, l.graph.localityOrder settings = .ok p := by
  cases hp : l.graph.localityOrder settings with
  | ok p => exact ⟨p, rfl⟩
  | error e =>
    obtain ⟨fault, rfl⟩ := Digraph.exists_fault_of_localityOrder hof.inRange hw hp
    exact absurd (by rw [hl, ok_bind, hp]) (h fault)

/-- A run that does not fault either prints nothing on the output and gives the reason, or it prints
the labels of its text in an order that is the same with places and without: each label once, or
each label, as first seen in the text, with its place in this order.  A text that cannot be read is
found before an empty window is, and no text has an edge to a vertex that does not exist. -/
theorem runsEnd (sourceOf : String → Source) (path : String) (settings : Settings) :
    (Faultless (sourceOf path) settings →
      (∀ cause, (sourceOf path).text = .error cause → RunsEnd sourceOf path settings fun _ =>
        ⟨1, "", "error: I/O error: " ++ cause.message ++ "\n"⟩) ∧
      (∀ text, (sourceOf path).text = .ok text → settings.window = 0 →
        RunsEnd sourceOf path settings fun _ =>
          ⟨1, "", "error: window size must be at least 1\n"⟩) ∧
      ∀ text rows labels, (sourceOf path).text = .ok text → 1 ≤ settings.window →
        Tells text.toList rows → labels = (rows.flatMap Text.Row.words).eraseDups →
        ∃ order : List String, order.Nodup ∧ order.Perm labels ∧
          (∀ label ∈ order, '\n' ∉ label.toList) ∧
          RunsEnd sourceOf path settings fun inverse =>
            if inverse then
              ⟨0, String.join (labels.map fun label =>
                label ++ " " ++ Nat.repr (order.idxOf label) ++ "\n"), ""⟩
            else
              ⟨0, String.join (order.map fun label => label ++ "\n"), ""⟩) ∧
    ∀ (request : Request) v w count,
      request.answer (sourceOf path) ≠ .error (.rejected (.vertexOutOfRange v w count)) := by
  refine ⟨fun hfaultless => ⟨fun cause hcause read arguments inverse hread => ?_,
    fun text htext hw read arguments inverse hread => ?_,
    fun text rows labels htext hw htells hlabels => ?_⟩, fun request v w count h => ?_⟩
  · rw [outcomeOf_of_read hread, outcome_of_refusal
      (answer_of_ofSource_eq_error (hfaultless.ofSource_eq hcause)), reason_of_unreadable]
  · obtain ⟨l, hl, -⟩ := hfaultless.exists_ofSource htext
    rw [outcomeOf_of_read hread, outcome_of_refusal
      (answer_of_localityOrder_eq_error hl (Digraph.localityOrder_of_window_eq_zero hw))]
    rfl
  · obtain rfl := tells_iff.mp htells
    obtain ⟨l, hl, hof⟩ := hfaultless.exists_ofSource htext
    obtain ⟨p, hp⟩ := hfaultless.exists_localityOrder hl hof hw
    obtain ⟨moved, hmoved⟩ := exists_apply_names hof hp
    have hperm := Renumbering.perm_of_apply hmoved
    have hnames : l.labels.names.toList = labels := hof.names.trans hlabels.symm
    rw [hnames] at hperm
    refine ⟨moved.toList, ?_, hperm, ?_, ?_⟩
    · rw [hperm.nodup_iff, hlabels]
      exact LabeledGraph.nodup_labelsOf _
    · intro label hlabel
      rw [hperm.mem_iff, hlabels] at hlabel
      exact (LabeledGraph.isWord_of_mem_labelsOf hlabel).newline_notMem
    · intro read arguments inverse hread
      rw [outcomeOf_of_read hread, Request.outcome, answer_of_localityOrder hl hp hmoved, hnames]
      cases inverse with
      | true =>
        show Outcome.mk 0 (unlines (labels.map _)) "" = _
        rw [unlines, List.map_map]
        rfl
      | false => rfl
  · rcases refusal_of_answer h with ⟨unreadable, hcause⟩ | hcause
    · cases hcause
    · cases hcause

/-- One file, and no other. -/
def sampleSources (path : String) : Source :=
  if path = "pairs" then .content "# pairs\n b a\nc b b\n\nd\nb c".toUTF8 else .unreadable .missing

set_option maxRecDepth 100000 in
/-- A comment, an indented row, a blank line, and a label with two rows. -/
theorem runsEnd_of_pairs :
    (∃ order : List String, order.Perm ["b", "a", "c", "d"] ∧
      String.join (order.map fun label => label ++ "\n") = "b\nc\na\nd\n" ∧
      String.join (["b", "a", "c", "d"].map fun label =>
        label ++ " " ++ Nat.repr (order.idxOf label) ++ "\n") = "b 0\na 2\nc 1\nd 3\n") ∧
    outcome sampleSources ["pairs", "-w", "2"] = ⟨0, "b\nc\na\nd\n", ""⟩ ∧
    outcome sampleSources ["--inverse", "--window=2", "pairs"] =
      ⟨0, "b 0\na 2\nc 1\nd 3\n", ""⟩ ∧
    outcome sampleSources ["nothing", "-w0"] =
      ⟨1, "", "error: I/O error: No such file or directory (os error 2)\n"⟩ ∧
    outcome sampleSources ["pairs", "-w0"] =
      ⟨1, "", "error: window size must be at least 1\n"⟩ := by
  have htext : (sampleSources "pairs").text = .ok "# pairs\n b a\nc b b\n\nd\nb c" := by cbv
  have htells : Tells "# pairs\n b a\nc b b\n\nd\nb c".toList
      [⟨"b", ["a"]⟩, ⟨"c", ["b", "b"]⟩, ⟨"d", []⟩, ⟨"b", ["c"]⟩] := tells_iff.mpr (by cbv)
  obtain ⟨hordered, hplaced⟩ := Prod.mk.inj (by cbv :
    (outcome sampleSources ["pairs", "-w", "2"],
      outcome sampleSources ["--inverse", "--window=2", "pairs"]) =
        (⟨0, "b\nc\na\nd\n", ""⟩, ⟨0, "b 0\na 2\nc 1\nd 3\n", ""⟩))
  -- what the arguments of the four runs ask for
  have hasked : [["pairs", "-w", "2"], ["--inverse", "--window=2", "pairs"], ["nothing", "-w0"],
      ["pairs", "-w0"]].map readArguments = [.ok ⟨"pairs", ⟨2⟩, false⟩, .ok ⟨"pairs", ⟨2⟩, true⟩,
        .ok ⟨"nothing", ⟨0⟩, false⟩, .ok ⟨"pairs", ⟨0⟩, false⟩] := by cbv
  simp only [List.map_cons, List.map_nil, List.cons.injEq, and_true] at hasked
  obtain ⟨hasked₁, hasked₂, hasked₃, hasked₄⟩ := hasked
  -- none of the runs faults
  obtain ⟨p, hp, -⟩ := exists_eq_ok (f := fun p => p.newToOld.toList) (b := [0, 2, 1, 3])
    (x := ofSource (sampleSources "pairs") >>= fun l => l.graph.localityOrder ⟨2⟩) (by cbv)
  have hunread : (ofSource (sampleSources "nothing") >>= fun l => l.graph.localityOrder ⟨0⟩) =
      .error (.rejected (.unreadable .missing)) := by cbv
  have hrefused : (ofSource (sampleSources "pairs") >>= fun l => l.graph.localityOrder ⟨0⟩) =
      .error (.rejected .invalidWindow) := by cbv
  obtain ⟨-, -, hpairs⟩ := (runsEnd sampleSources "pairs" ⟨2⟩).1 fun fault h => by
    cases hp.symm.trans h
  obtain ⟨hmissing, -⟩ := (runsEnd sampleSources "nothing" ⟨0⟩).1 fun fault h => by
    cases hunread.symm.trans h
  obtain ⟨-, hempty, -⟩ := (runsEnd sampleSources "pairs" ⟨0⟩).1 fun fault h => by
    cases hrefused.symm.trans h
  obtain ⟨order, -, hperm, -, hrun⟩ := hpairs _ _ _ htext (by decide) htells rfl
  obtain ⟨-, hlines, -⟩ := Outcome.mk.inj ((hrun _ _ _ hasked₁).symm.trans hordered)
  obtain ⟨-, hplaces, -⟩ := Outcome.mk.inj ((hrun _ _ _ hasked₂).symm.trans hplaced)
  exact ⟨⟨order, hperm, hlines, hplaces⟩, hordered, hplaced,
    hmissing .missing rfl _ _ _ hasked₃, hempty _ htext rfl _ _ _ hasked₄⟩

end LocalityOrder.Command
