import LocalityOrder.LabeledGraph
import LocalityOrder.Proofs.Digraph
import LocalityOrder.Proofs.Digraph.Edges
import LocalityOrder.Proofs.Text

/-!
# Graphs read from rows

The labels of a graph that is read are the words of its rows, each once, in the order in which they
first occur.  The targets of a label are the targets of all rows that it heads, one after the other,
and all edges lead to vertices of the graph.  Reading rows fails only at a label for which no number
is left.
-/

namespace LocalityOrder

/-! ## Labels -/

namespace Labels

variable {l : Labels} {name : String} {v w : Vertex}

theorem find?_of_mem (h : name ∈ l.names.toList) :
    l.find? name = some (l.names.toList.idxOf name) := by
  rw [find?_eq_some_iff, ← Array.getElem?_toList]
  exact List.getElem?_idxOf h

theorem find?_eq_none_iff : l.find? name = none ↔ name ∉ l.names.toList := by
  constructor
  · intro hnone hmem
    rw [find?_of_mem hmem] at hnone
    cases hnone
  · intro hmem
    cases hfind : l.find? name with
    | none => rfl
    | some v =>
      rw [find?_eq_some_iff] at hfind
      exact absurd (Array.mem_toList_iff.mpr (Array.mem_of_getElem? hfind)) hmem

theorem nodup_names (l : Labels) : l.names.toList.Nodup := by
  apply List.pairwise_iff_getElem.mpr
  intro v w hv hw hlt heq
  have hfind : ∀ (v : Nat) (hv : v < l.names.toList.length),
      l.find? l.names.toList[v] = some v := fun v hv => by
    rw [find?_eq_some_iff, ← Array.getElem?_toList, List.getElem?_eq_getElem]
  have hv' := hfind v hv
  rw [heq, hfind w hw, Option.some.injEq] at hv'
  omega

theorem see_of_mem (h : name ∈ l.names.toList) :
    l.see name = .ok (l.names.toList.idxOf name, l) := by
  unfold see
  split
  next v hv =>
    rw [find?_of_mem h] at hv
    cases hv
    rfl
  next hnone => exact absurd h (find?_eq_none_iff.mp hnone)

theorem see_of_notMem (h : name ∉ l.names.toList) (hsize : l.size ≤ Vertex.largest) :
    ∃ l', l.see name = .ok (l.names.size, l') ∧ l'.names = l.names.push name := by
  unfold see
  split
  next v hv =>
    rw [find?_eq_none_iff.mpr h] at hv
    cases hv
  next hnone =>
    refine ⟨l.push name hnone, ?_, rfl⟩
    rw [Vertex.ofIndex, if_pos hsize]
    rfl

theorem see_of_lt (h : name ∉ l.names.toList) (hsize : Vertex.largest < l.size) :
    l.see name = .error (.idTooLarge l.size) := by
  unfold see
  split
  next v hv =>
    rw [find?_eq_none_iff.mpr h] at hv
    cases hv
  next =>
    rw [Vertex.ofIndex, if_neg (Nat.not_le.mpr hsize)]
    rfl

end Labels

/-! ## What rows say -/

/-- The pairs of labels that a row connects. -/
def Text.Row.pairs (row : Text.Row) : List (String × String) :=
  row.targets.map fun target => (row.head, target)

namespace LabeledGraph

variable {rows : List Text.Row} {words : List String} {pairs : List (String × String)}
variable {name head : String} {v : Nat}

/-- The labels of rows, each once, in the order in which they first occur. -/
def labelsOf (rows : List Text.Row) : List String := (rows.flatMap Text.Row.words).eraseDups

/-- The number of a label among those of the rows. -/
def idOf (rows : List Text.Row) (label : String) : Vertex := (labelsOf rows).idxOf label

/-- The targets of all rows with the same head. -/
def targetsOf (rows : List Text.Row) (head : String) : List String :=
  (rows.filter fun row => row.head = head).flatMap Text.Row.targets

theorem eraseDups_concat (words : List String) (name : String) : (words ++ [name]).eraseDups =
    if name ∈ words then words.eraseDups else words.eraseDups ++ [name] := by
  rw [List.eraseDups_append]
  by_cases h : name ∈ words
  · simp [List.removeAll, h]
  · simp [List.removeAll, List.eraseDups_cons, h]

theorem nodup_eraseDups (words : List String) : words.eraseDups.Nodup := by
  induction words using List.reverseRecOn with
  | nil => exact List.nodup_nil
  | append_singleton words name ih =>
    rw [eraseDups_concat]
    split
    next => exact ih
    next hname =>
      have hnew : name ∉ words.eraseDups := fun hmem => hname (List.mem_eraseDups.mp hmem)
      exact List.nodup_append.mpr ⟨ih, List.nodup_singleton name, fun other hother last hlast =>
        fun heq => hnew (List.mem_singleton.mp hlast ▸ heq ▸ hother)⟩

theorem length_eraseDups_le_append (words more : List String) :
    words.eraseDups.length ≤ (words ++ more).eraseDups.length := by
  rw [List.eraseDups_append, List.length_append]
  exact Nat.le_add_right _ _

-- A label that was seen keeps its number.
theorem idxOf_eraseDups_append (h : name ∈ words) (more : List String) :
    (words ++ more).eraseDups.idxOf name = words.eraseDups.idxOf name := by
  rw [List.eraseDups_append, List.idxOf_append_of_mem (List.mem_eraseDups.mpr h)]

/-! ## Reading -/

/-- The computation, in which these words are seen, has a value with the given property; or there
are more labels among the words than numbers, and the first one without a number is the fault. -/
inductive Reads {α : Type} (P : α → Prop) (words : List String) : Except Fault α → Prop
  | ok {a : α} (h : P a) : Reads P words (.ok a)
  | fault (h : Vertex.largest + 1 < words.eraseDups.length) :
      Reads P words (.error (.idTooLarge (Vertex.largest + 1)))

theorem Reads.bind {α β : Type} {P : α → Prop} {Q : β → Prop} {more : List String}
    {x : Except Fault α} {f : α → Except Fault β} (h : Reads P words x) (hmore : words <+: more)
    (hf : ∀ a, P a → Reads Q more (f a)) : Reads Q more (x >>= f) := by
  obtain ⟨rest, rfl⟩ := hmore
  cases h with
  | ok ha => exact hf _ ha
  | fault hlt => exact .fault (Nat.lt_of_lt_of_le hlt (length_eraseDups_le_append words rest))

theorem Reads.exists_eq_ok {α : Type} {P : α → Prop} {x : Except Fault α} (h : Reads P words x)
    (hfits : words.eraseDups.length ≤ Vertex.largest + 1) : ∃ a, x = .ok a ∧ P a := by
  cases h with
  | ok ha => exact ⟨_, rfl, ha⟩
  | fault hlt => exact absurd hfits (Nat.not_le.mpr hlt)

theorem Reads.eq_error {α : Type} {P : α → Prop} {x : Except Fault α} (h : Reads P words x)
    (hnone : ∀ a, ¬ P a) : x = .error (.idTooLarge (Vertex.largest + 1)) := by
  cases h with
  | ok ha => exact absurd ha (hnone _)
  | fault => rfl

namespace Reading

variable {r : Reading} {labels : Labels}

/-- The words and the pairs of words that were read. -/
structure Holds (r : Reading) (words : List String) (pairs : List (String × String)) : Prop where
  names : r.labels.names.toList = words.eraseDups
  fits : words.eraseDups.length ≤ Vertex.largest + 1
  edges : r.edges.toList = pairs.map fun pair =>
    (words.eraseDups.idxOf pair.1, words.eraseDups.idxOf pair.2)
  mem : ∀ pair ∈ pairs, pair.1 ∈ words ∧ pair.2 ∈ words

theorem Holds.size (h : r.Holds words pairs) : r.labels.size = words.eraseDups.length := by
  rw [← h.names]
  rfl

-- A word more, with the number that it has, leaves the edges as they are.
theorem Holds.concat (h : r.Holds words pairs)
    (hnames : labels.names.toList = (words ++ [name]).eraseDups)
    (hfits : (words ++ [name]).eraseDups.length ≤ Vertex.largest + 1) :
    Holds ⟨labels, r.edges⟩ (words ++ [name]) pairs := by
  refine ⟨hnames, hfits, ?_, fun pair hpair => ?_⟩
  · rw [h.edges]
    apply List.map_congr_left
    intro pair hpair
    rw [idxOf_eraseDups_append (h.mem pair hpair).1, idxOf_eraseDups_append (h.mem pair hpair).2]
  · simp [h.mem pair hpair]

theorem Holds.see (h : r.Holds words pairs) (name : String) :
    Reads (fun seen => seen.1 = (words ++ [name]).eraseDups.idxOf name ∧
      Holds ⟨seen.2, r.edges⟩ (words ++ [name]) pairs) (words ++ [name]) (r.labels.see name) := by
  have hmem : name ∈ r.labels.names.toList ↔ name ∈ words := by rw [h.names, List.mem_eraseDups]
  have hdistinct := eraseDups_concat words name
  by_cases hname : name ∈ words
  · rw [if_pos hname] at hdistinct
    rw [Labels.see_of_mem (hmem.mpr hname)]
    exact .ok ⟨by rw [hdistinct, h.names], h.concat (by rw [hdistinct, h.names])
      (by rw [hdistinct]; exact h.fits)⟩
  · rw [if_neg hname] at hdistinct
    have hlength : (words ++ [name]).eraseDups.length = r.labels.size + 1 := by
      rw [hdistinct, List.length_append, List.length_singleton, h.size]
    by_cases hsize : r.labels.size ≤ Vertex.largest
    · obtain ⟨labels, hsee, hnames⟩ := Labels.see_of_notMem (mt hmem.mp hname) hsize
      rw [hsee]
      refine .ok ⟨?_, h.concat ?_ (by omega)⟩
      · rw [hdistinct, ← h.names, List.idxOf_append_of_notMem (mt hmem.mp hname)]
        simp
      · rw [hdistinct, hnames, Array.toList_push, h.names]
    · have hlast : r.labels.size = Vertex.largest + 1 := by
        have hfits := h.fits
        rw [← h.size] at hfits
        omega
      rw [Labels.see_of_lt (mt hmem.mp hname) (Nat.not_le.mp hsize), hlast]
      exact .fault (by omega)

theorem Holds.addTarget (h : r.Holds words pairs) (hhead : head ∈ words)
    (hv : v = words.eraseDups.idxOf head) (target : String) :
    Reads (Holds · (words ++ [target]) (pairs ++ [(head, target)])) (words ++ [target])
      (addTarget v r target) := by
  refine (h.see target).bind List.prefix_rfl fun ⟨w, labels⟩ ⟨hid, hseen⟩ => .ok ?_
  refine ⟨hseen.names, hseen.fits, ?_, fun pair hpair => ?_⟩
  · show (r.edges.push (v, w)).toList = _
    rw [Array.toList_push, hseen.edges, List.map_append, List.map_singleton,
      idxOf_eraseDups_append hhead, hv]
    exact congrArg (fun w => _ ++ [(_, w)]) hid
  · rcases List.mem_append.mp hpair with hold | hnew
    · exact hseen.mem pair hold
    · rw [List.mem_singleton] at hnew
      simp [hnew, hhead]

theorem Holds.addTargets (h : r.Holds words pairs) (hhead : head ∈ words)
    (hv : v = words.eraseDups.idxOf head) (targets : List String) :
    Reads (Holds · (words ++ targets) (pairs ++ targets.map fun target => (head, target)))
      (words ++ targets) (targets.foldlM (Reading.addTarget v) r) := by
  induction targets generalizing r words pairs with
  | nil => exact .ok (by simpa using h)
  | cons target rest ih =>
    rw [List.foldlM_cons, List.append_cons words, List.map_cons, List.append_cons pairs]
    refine (h.addTarget hhead hv target).bind (List.prefix_append _ rest) fun r' hr' => ?_
    exact ih hr' (List.mem_append_left _ hhead) (hv.trans (idxOf_eraseDups_append hhead _).symm)

theorem Holds.addRow (h : r.Holds words pairs) (row : Text.Row) :
    Reads (Holds · (words ++ row.words) (pairs ++ row.pairs)) (words ++ row.words)
      (r.addRow row) := by
  rw [Text.Row.words, List.append_cons]
  refine (h.see row.head).bind (List.prefix_append _ _) fun ⟨v, labels⟩ ⟨hid, hseen⟩ => ?_
  exact hseen.addTargets (List.mem_append_right _ (List.mem_singleton.mpr rfl)) hid row.targets

theorem reads_foldlM (rows : List Text.Row) :
    Reads (Holds · (rows.flatMap Text.Row.words) (rows.flatMap Text.Row.pairs))
      (rows.flatMap Text.Row.words) (rows.foldlM addRow .empty) := by
  -- the induction is on the rows still to come, after any words and pairs that were read
  have hall : ∀ (r : Reading) words pairs, r.Holds words pairs →
      Reads (Holds · (words ++ rows.flatMap Text.Row.words) (pairs ++ rows.flatMap Text.Row.pairs))
        (words ++ rows.flatMap Text.Row.words) (rows.foldlM addRow r) := by
    induction rows with
    | nil => exact fun r words pairs h => .ok (by simpa using h)
    | cons row rest ih =>
      intro r words pairs h
      rw [List.foldlM_cons, List.flatMap_cons, List.flatMap_cons, ← List.append_assoc,
        ← List.append_assoc]
      exact (h.addRow row).bind (List.prefix_append _ _) fun r' hr' => ih r' _ _ hr'
  exact hall .empty [] [] ⟨rfl, Nat.zero_le _, rfl, by simp⟩

theorem exists_foldlM {rows : List Text.Row}
    (h : (labelsOf rows).length ≤ Vertex.largest + 1) :
    ∃ r, rows.foldlM addRow .empty = .ok r ∧
      r.Holds (rows.flatMap Text.Row.words) (rows.flatMap Text.Row.pairs) :=
  (reads_foldlM rows).exists_eq_ok h

theorem foldlM_of_lt {rows : List Text.Row}
    (h : Vertex.largest + 1 < (labelsOf rows).length) :
    rows.foldlM addRow .empty = .error (.idTooLarge (Vertex.largest + 1)) :=
  (reads_foldlM rows).eq_error fun _ hr => Nat.not_lt.mpr hr.fits h

/-! ## Lines -/

theorem foldlM_addLine (names : List String) (r : Reading) :
    (names.map String.toUTF8).foldlM addLine r =
      ((names.filterMap Text.Row.ofLine?).foldlM addRow r).mapError .fault := by
  rw [List.foldlM_map, ← foldlM_mapError, List.foldlM_filterMap]
  congr 1
  funext r name
  rw [addLine, mapError_eq_ok_iff.mpr (Text.decode_eq_ok_iff.mpr rfl), ok_bind]
  cases Text.Row.ofLine? name with
  | none => rfl
  | some row => rfl

theorem addLine_of_not_isValidUTF8 {line : ByteArray} (h : ¬ line.IsValidUTF8) (r : Reading) :
    r.addLine line = .error (.rejected (.unreadable .invalidEncoding)) := by
  rw [addLine, Text.decode_of_not_isValidUTF8 h]
  rfl

end Reading

/-! ## The graph -/

/-- The graph that rows describe. -/
structure IsOf (l : LabeledGraph) (rows : List Text.Row) : Prop where
  names : l.labels.names.toList = labelsOf rows
  fits : (labelsOf rows).length ≤ Vertex.largest + 1
  size : l.graph.size = (labelsOf rows).length
  targets : ∀ name ∈ labelsOf rows,
    l.graph.targets (idOf rows name) = (targetsOf rows name).map (idOf rows)

theorem mem_labelsOf : name ∈ labelsOf rows ↔ ∃ row ∈ rows, name ∈ row.words := by
  rw [labelsOf, List.mem_eraseDups, List.mem_flatMap]

theorem idOf_lt (h : name ∈ labelsOf rows) : idOf rows name < (labelsOf rows).length :=
  List.idxOf_lt_length_of_mem h

theorem idOf_inj {other : String} (h : name ∈ labelsOf rows) :
    idOf rows name = idOf rows other ↔ name = other := List.idxOf_inj h

-- Of all pairs, those with one head are the targets of the rows with this head.
theorem filter_pairs (rows : List Text.Row) (head : String) :
    ((rows.flatMap Text.Row.pairs).filter fun pair => pair.1 = head).map Prod.snd =
      targetsOf rows head := by
  induction rows with
  | nil => rfl
  | cons row rest ih =>
    rw [List.flatMap_cons, List.filter_append, List.map_append, ih, targetsOf, targetsOf]
    by_cases h : row.head = head
    · simp [Text.Row.pairs, List.filter_map, Function.comp_def, h]
    · simp [Text.Row.pairs, List.filter_map, Function.comp_def, h]

theorem Reading.Holds.exists_finish {r : Reading}
    (h : r.Holds (rows.flatMap Text.Row.words) (rows.flatMap Text.Row.pairs)) :
    ∃ l, r.finish = .ok l ∧ l.IsOf rows := by
  have hsize : r.labels.size = (labelsOf rows).length := h.size
  have hlabel : ∀ pair ∈ rows.flatMap Text.Row.pairs, pair.1 ∈ labelsOf rows := fun pair hpair =>
    List.mem_eraseDups.mpr (h.mem pair hpair).1
  have hrange : ∀ edge ∈ r.edges.toList, edge.1 < r.labels.size := by
    rw [h.edges, hsize]
    intro edge hedge
    obtain ⟨pair, hpair, rfl⟩ := List.mem_map.mp hedge
    exact idOf_lt (hlabel pair hpair)
  obtain ⟨g, hg⟩ := Digraph.exists_ofEdges hrange
  obtain ⟨hgsize, htargets⟩ := Digraph.of_ofEdges hg
  refine ⟨⟨g, r.labels⟩, ?_, h.names, h.fits, hgsize.trans hsize, fun name hname => ?_⟩
  · rw [finish, hg]
    rfl
  · show g.targets _ = _
    rw [htargets _ (hsize ▸ idOf_lt hname), h.edges, List.filter_map, List.map_map,
      ← filter_pairs, List.map_map]
    have hfilter : ∀ pair ∈ rows.flatMap Text.Row.pairs,
        decide (idOf rows pair.1 = idOf rows name) = decide (pair.1 = name) := by
      intro pair hpair
      rw [decide_eq_decide, idOf_inj (hlabel pair hpair)]
    congr 1
    exact List.filter_congr hfilter

theorem nodup_labelsOf (rows : List Text.Row) : (labelsOf rows).Nodup := nodup_eraseDups _

theorem mem_labelsOf_of_mem_targetsOf (h : name ∈ targetsOf rows head) : name ∈ labelsOf rows := by
  obtain ⟨row, hrow, htarget⟩ := List.mem_flatMap.mp h
  exact mem_labelsOf.mpr ⟨row, List.mem_of_mem_filter hrow, List.mem_cons_of_mem _ htarget⟩

namespace IsOf

variable {l : LabeledGraph}

theorem getElem?_names (h : l.IsOf rows) (v : Nat) : l.labels.names[v]? = (labelsOf rows)[v]? := by
  rw [← h.names, Array.getElem?_toList]

theorem size_names (h : l.IsOf rows) : l.labels.names.size = l.graph.size := by
  rw [h.size, ← h.names, Array.length_toList]

-- Every vertex of the graph is that of a label.
theorem exists_label (h : l.IsOf rows) (hv : v < l.graph.size) :
    ∃ name ∈ labelsOf rows, idOf rows name = v := by
  rw [h.size] at hv
  exact ⟨(labelsOf rows)[v], List.getElem_mem hv, (nodup_labelsOf rows).idxOf_getElem v hv⟩

theorem inRange (h : l.IsOf rows) : l.graph.InRange := by
  rw [Digraph.inRange_iff]
  intro v w hw
  obtain ⟨name, hname, rfl⟩ := h.exists_label (Digraph.lt_size_of_mem_targets hw)
  rw [h.targets name hname] at hw
  obtain ⟨target, htarget, rfl⟩ := List.mem_map.mp hw
  rw [h.size]
  exact idOf_lt (mem_labelsOf_of_mem_targetsOf htarget)

end IsOf

/-! ## Texts -/

theorem ofBytes_toUTF8 (text : String) : ofBytes text.toUTF8 =
    ((Text.rowsOf text).foldlM Reading.addRow .empty >>= Reading.finish).mapError .fault := by
  rw [ofBytes, Text.lines_toUTF8, Reading.foldlM_addLine, mapError_bind]
  rfl

-- The lines in front of the first one that is not UTF-8 are read, and then it is found.
theorem ofBytes_of_not_isValidUTF8 {bytes : ByteArray} (h : ¬ bytes.IsValidUTF8) :
    ofBytes bytes =
      (((Text.frontRows bytes).foldlM Reading.addRow .empty).mapError .fault >>= fun _ =>
        .error (.rejected (.unreadable .invalidEncoding))) := by
  obtain ⟨line, after, hlines, hline⟩ := Text.exists_line_of_not_isValidUTF8 h
  rw [ofBytes, hlines, List.foldlM_append, Reading.foldlM_addLine, Text.frontRows, bind_assoc]
  apply bind_congr
  intro r
  rw [List.foldlM_cons, Reading.addLine_of_not_isValidUTF8 hline, error_bind, error_bind]

theorem exists_ofBytes {text : String}
    (h : (labelsOf (Text.rowsOf text)).length ≤ Vertex.largest + 1) :
    ∃ l, ofBytes text.toUTF8 = .ok l ∧ l.IsOf (Text.rowsOf text) := by
  obtain ⟨r, hr, hholds⟩ := Reading.exists_foldlM h
  obtain ⟨l, hl, hof⟩ := hholds.exists_finish
  refine ⟨l, ?_, hof⟩
  rw [ofBytes_toUTF8, hr, ok_bind, mapError_eq_ok_iff.mpr hl]

-- A label for which no number is left is a fault, unless a line before it is not UTF-8.
theorem ofBytes_of_lt {bytes : ByteArray}
    (h : Vertex.largest + 1 < (labelsOf (Text.frontRows bytes)).length) :
    ofBytes bytes = .error (.fault (.idTooLarge (Vertex.largest + 1))) := by
  have hrows := Reading.foldlM_of_lt h
  by_cases hvalid : bytes.IsValidUTF8
  · have hbytes : bytes = (String.fromUTF8 bytes hvalid).toUTF8 := rfl
    rw [hbytes, Text.frontRows_toUTF8] at hrows
    rw [hbytes, ofBytes_toUTF8, hrows]
    rfl
  · rw [ofBytes_of_not_isValidUTF8 hvalid, hrows]
    rfl

theorem ofBytes_of_le_of_not_isValidUTF8 {bytes : ByteArray}
    (h : (labelsOf (Text.frontRows bytes)).length ≤ Vertex.largest + 1)
    (hvalid : ¬ bytes.IsValidUTF8) :
    ofBytes bytes = .error (.rejected (.unreadable .invalidEncoding)) := by
  obtain ⟨r, hr, -⟩ := Reading.exists_foldlM h
  rw [ofBytes_of_not_isValidUTF8 hvalid, hr]
  rfl

-- What is read is a text.
theorem exists_text_of_ofBytes {l : LabeledGraph} {bytes : ByteArray} (h : ofBytes bytes = .ok l) :
    ∃ text : String, bytes = text.toUTF8 ∧ l.IsOf (Text.rowsOf text) := by
  by_cases hfits : (labelsOf (Text.frontRows bytes)).length ≤ Vertex.largest + 1
  · by_cases hvalid : bytes.IsValidUTF8
    · have hbytes : bytes = (String.fromUTF8 bytes hvalid).toUTF8 := rfl
      rw [hbytes, Text.frontRows_toUTF8] at hfits
      obtain ⟨l', hl', hof⟩ := exists_ofBytes hfits
      cases h.symm.trans hl'
      exact ⟨_, rfl, hof⟩
    · cases h.symm.trans (ofBytes_of_le_of_not_isValidUTF8 hfits hvalid)
  · cases h.symm.trans (ofBytes_of_lt (Nat.not_le.mp hfits))

theorem isWord_of_mem_labelsOf {text : String} (h : name ∈ labelsOf (Text.rowsOf text)) :
    Text.IsWord name := by
  obtain ⟨row, hrow, hword⟩ := mem_labelsOf.mp h
  exact Text.isWord_of_mem_rowsOf hrow hword

end LabeledGraph

/-- The text of a source.  Its content has to be UTF-8 as a whole. -/
def Source.text : Source → Except Unreadable String
  | .content bytes =>
      match String.fromUTF8? bytes with
      | some text => .ok text
      | none => .error .invalidEncoding
  | .unreadable cause => .error cause

namespace LabeledGraph

variable {source : Source}

-- A text is read as the graph of its rows, or there are not numbers enough for its labels.
theorem ofSource_of_text {text : String} (h : source.text = .ok text) :
    (∃ l, ofSource source = .ok l ∧ l.IsOf (Text.rowsOf text)) ∨
      ∃ fault, ofSource source = .error (.fault fault) := by
  unfold Source.text at h
  split at h
  · split at h
    next htext =>
      cases h
      obtain rfl := Text.fromUTF8?_eq_some_iff.mp htext
      by_cases hfits : (labelsOf (Text.rowsOf text)).length ≤ Vertex.largest + 1
      · exact .inl (exists_ofBytes hfits)
      · rw [← Text.frontRows_toUTF8] at hfits
        exact .inr ⟨_, ofBytes_of_lt (Nat.not_le.mp hfits)⟩
    next => cases h
  · cases h

theorem ofSource_of_text_eq_error {cause : Unreadable} (h : source.text = .error cause) :
    ofSource source = .error (.rejected (.unreadable cause)) ∨
      ∃ fault, ofSource source = .error (.fault fault) := by
  unfold Source.text at h
  split at h
  next bytes =>
    split at h
    next => cases h
    next hnone =>
      cases h
      by_cases hfits : (labelsOf (Text.frontRows bytes)).length ≤ Vertex.largest + 1
      · exact .inl (ofBytes_of_le_of_not_isValidUTF8 hfits (Text.fromUTF8?_eq_none_iff.mp hnone))
      · exact .inr ⟨_, ofBytes_of_lt (Nat.not_le.mp hfits)⟩
  next =>
    cases h
    exact .inl rfl

end LabeledGraph

end LocalityOrder
