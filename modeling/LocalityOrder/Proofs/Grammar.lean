import LocalityOrder.Proofs.LabeledGraph
import Mathlib

/-!
# The grammar of a text

What a text says, told without taking it apart.  Words stand in a line with blanks around them, a
line is a comment, blank or a row, and a text is its lines with newlines between them.  Every text
tells the rows that are read from it, and no others.  A carriage return at the end of a line and a
newline at the end of the text add nothing, since the one is a blank and the other ends a line.
-/

namespace LocalityOrder

namespace Text

variable {line chars more : List Char} {names : List String} {rows rows' : List Row} {c : Char}

/-! ## Words in a line -/

/-- These words stand in the line, in this order, and around them there are only blanks. -/
inductive Spells : List Char → List String → Prop
  | nil : Spells [] []
  | blank {c : Char} {rest : List Char} {names : List String} (hc : isBlank c = true)
      (h : Spells rest names) : Spells (c :: rest) names
  -- a word goes on up to a blank or the end of the line
  | word {piece rest : List Char} {names : List String} (hne : piece ≠ [])
      (hpiece : ∀ c ∈ piece, isBlank c = false) (hend : ∀ c ∈ rest.head?, isBlank c = true)
      (h : Spells rest names) : Spells (piece ++ rest) (String.ofList piece :: names)

theorem words_blank (hc : isBlank c = true) (line : List Char) :
    words (String.ofList (c :: line)) = words (String.ofList line) := by
  unfold words
  rw [String.toList_ofList, String.toList_ofList, List.splitOnP_cons_eq_if_modifyHead, if_pos hc]
  rfl

theorem words_piece {piece : List Char} (hne : piece ≠ [])
    (hpiece : ∀ c ∈ piece, isBlank c = false) (hend : ∀ c ∈ line.head?, isBlank c = true) :
    words (String.ofList (piece ++ line)) = String.ofList piece :: words (String.ofList line) := by
  have hword : IsWord (String.ofList piece) := by
    rw [IsWord, String.toList_ofList]
    exact ⟨hne, hpiece⟩
  cases line with
  | nil =>
    rw [List.append_nil, hword.words_eq]
    rfl
  | cons c rest =>
    have hc : isBlank c = true := hend c rfl
    rw [words_blank hc]
    unfold words
    rw [String.toList_ofList, String.toList_ofList,
      List.splitOnP_append_cons_of_forall_mem hpiece c hc,
      List.filter_cons_of_pos (by simpa using hne), List.map_cons]

theorem Spells.words_eq (h : Spells line names) : words (String.ofList line) = names := by
  induction h with
  | nil => rfl
  | blank hc _ ih => rw [words_blank hc, ih]
  | word hne hpiece hend _ ih => rw [words_piece hne hpiece hend, ih]

-- A character in front that is no blank begins a word or becomes part of the first one.
theorem Spells.exists_cons (h : Spells line names) (hc : isBlank c = false) :
    ∃ names', Spells (c :: line) names' := by
  have hpiece : ∀ d ∈ [c], isBlank d = false := fun d hd => List.mem_singleton.mp hd ▸ hc
  cases h with
  | nil => exact ⟨_, .word (List.cons_ne_nil c []) hpiece nofun .nil⟩
  | blank hd h =>
    refine ⟨_, .word (List.cons_ne_nil c []) hpiece (fun d hd' => ?_) (.blank hd h)⟩
    cases hd'
    exact hd
  | word _ hrest hend h =>
    refine ⟨_, .word (List.cons_ne_nil c _) (fun d hd => ?_) hend h⟩
    rcases List.mem_cons.mp hd with rfl | hd
    · exact hc
    · exact hrest d hd

theorem exists_spells (line : List Char) : ∃ names, Spells line names := by
  induction line with
  | nil => exact ⟨[], .nil⟩
  | cons c rest ih =>
    obtain ⟨names, h⟩ := ih
    cases hc : isBlank c with
    | true => exact ⟨names, .blank hc h⟩
    | false => exact h.exists_cons hc

theorem of_head?_concat {d : Char} (h : (line ++ [c]).head? = some d) :
    line.head? = some d ∨ d = c := by
  cases line with
  | nil =>
    cases h
    exact .inr rfl
  | cons first rest => exact .inl h

theorem Spells.concat_blank (h : Spells line names) (hc : isBlank c = true) :
    Spells (line ++ [c]) names := by
  induction h with
  | nil => exact .blank hc .nil
  | blank hd _ ih => exact .blank hd ih
  | word hne hpiece hend _ ih =>
    rw [List.append_assoc]
    refine .word hne hpiece (fun d hd => ?_) ih
    rcases of_head?_concat hd with hrest | rfl
    · exact hend d hrest
    · exact hc

-- Between two words there is a blank, and a word has a character.
theorem Spells.two_mul_length_le (h : Spells line names) :
    2 * names.length ≤ line.length + 1 ∧
      ((∀ c ∈ line.head?, isBlank c = true) → 2 * names.length ≤ line.length) := by
  induction h with
  | nil => simp
  | blank hc _ ih =>
    rw [List.length_cons]
    omega
  | @word piece rest names hne hpiece hend _ ih =>
    have hpos := List.length_pos_iff.mpr hne
    have hrest := ih.2 hend
    rw [List.length_cons, List.length_append]
    refine ⟨by omega, fun hblank => ?_⟩
    obtain ⟨c, piece', rfl⟩ := List.exists_cons_of_ne_nil hne
    have hc := hpiece c List.mem_cons_self
    rw [hblank c rfl] at hc
    cases hc

/-! ## Lines of a text -/

/-- The line says these rows: none if it is a comment or blank, and else one. -/
inductive Says : List Char → List Row → Prop
  | comment (rest : List Char) : Says ('#' :: rest) []
  | blank {line : List Char} (h : Spells line []) : Says line []
  | row {line : List Char} {head : String} {targets : List String}
      (hcomment : line.head? ≠ some '#') (h : Spells line (head :: targets)) :
      Says line [⟨head, targets⟩]

/-- The lines of the text say these rows, one after the other. -/
inductive Tells : List Char → List Row → Prop
  | last {line : List Char} {rows : List Row} (hline : '\n' ∉ line) (h : Says line rows) :
      Tells line rows
  | line {line rest : List Char} {rows rows' : List Row} (hline : '\n' ∉ line)
      (h : Says line rows) (hrest : Tells rest rows') :
      Tells (line ++ '\n' :: rest) (rows ++ rows')

theorem Says.ofLine?_eq (h : Says line rows) :
    (Row.ofLine? (String.ofList line)).toList = rows := by
  unfold Row.ofLine? isComment
  rw [String.toList_ofList]
  cases h with
  | comment rest => rfl
  | blank h =>
    rw [h.words_eq]
    split <;> rfl
  | row hcomment h =>
    rw [h.words_eq, if_neg (by simpa using hcomment)]
    rfl

theorem exists_says (line : List Char) : ∃ rows, Says line rows := by
  by_cases hcomment : line.head? = some '#'
  · obtain ⟨rest, rfl⟩ := List.head?_eq_some_iff.mp hcomment
    exact ⟨[], .comment rest⟩
  · obtain ⟨names, h⟩ := exists_spells line
    cases names with
    | nil => exact ⟨[], .blank h⟩
    | cons head targets => exact ⟨[⟨head, targets⟩], .row hcomment h⟩

theorem Tells.rowsOf_eq (h : Tells chars rows) : rowsOf (String.ofList chars) = rows := by
  unfold rowsOf pieces
  rw [String.toList_ofList, List.filterMap_eq_flatMap_toList]
  induction h with
  | last hline h =>
    rw [List.splitOn_eq_singleton hline, List.map_singleton, List.flatMap_singleton, h.ofLine?_eq]
  | line hline h _ ih =>
    rw [List.splitOn_append_cons_self_of_not_mem hline, List.map_cons, List.flatMap_cons,
      h.ofLine?_eq, ih]

-- A character in front ends an empty line or becomes part of the first line.
theorem exists_tells (chars : List Char) : ∃ rows, Tells chars rows := by
  induction chars with
  | nil => exact ⟨[], .last List.not_mem_nil (.blank .nil)⟩
  | cons c rest ih =>
    obtain ⟨rows, h⟩ := ih
    by_cases hc : c = '\n'
    · subst hc
      exact ⟨_, .line List.not_mem_nil (.blank .nil) h⟩
    · have hline : ∀ {line : List Char}, '\n' ∉ line → '\n' ∉ c :: line := fun hline hmem =>
        (List.mem_cons.mp hmem).elim (fun heq => hc heq.symm) hline
      cases h with
      | last h =>
        obtain ⟨rows', hsays⟩ := exists_says (c :: rest)
        exact ⟨rows', .last (hline h) hsays⟩
      | @line line _ _ _ h _ hrest =>
        obtain ⟨rows', hsays⟩ := exists_says (c :: line)
        exact ⟨_, .line (hline h) hsays hrest⟩

/-- A text tells the rows that are read from it and no others. -/
theorem tells_iff {text : String} : Tells text.toList rows ↔ rowsOf text = rows := by
  have hread : ∀ {rows}, Tells text.toList rows → rowsOf text = rows := fun h => by
    rw [← h.rowsOf_eq, String.ofList_toList]
  refine ⟨hread, ?_⟩
  rintro rfl
  obtain ⟨rows, h⟩ := exists_tells text.toList
  rwa [hread h]

/-! ## Ends of lines -/

/-- The texts differ in the end of one line: a carriage return before the newline, or a newline at
the end of the text. -/
inductive EndsChange : String → String → Prop
  | carriageReturn (before after : String) :
      EndsChange (before ++ "\n" ++ after) (before ++ "\r\n" ++ after)
  | finalNewline (text : String) : EndsChange text (text ++ "\n")

theorem Says.concat_carriageReturn (h : Says line rows) : Says (line ++ ['\r']) rows := by
  cases h with
  | comment rest => exact .comment (rest ++ ['\r'])
  | blank h => exact .blank (h.concat_blank isBlank_carriageReturn)
  | row hcomment h =>
    refine .row (fun hhead => ?_) (h.concat_blank isBlank_carriageReturn)
    rcases of_head?_concat hhead with hline | heq
    · exact hcomment hline
    · exact absurd heq (by decide)

theorem Tells.concat_carriageReturn (h : Tells chars rows) : Tells (chars ++ ['\r']) rows := by
  induction h with
  | last hline h => exact .last (by simpa using hline) h.concat_carriageReturn
  | line hline h _ ih =>
    rw [List.append_assoc]
    exact .line hline h ih

theorem Tells.append (h : Tells chars rows) (h' : Tells more rows') :
    Tells (chars ++ '\n' :: more) (rows ++ rows') := by
  induction h with
  | last hline h => exact .line hline h h'
  | line hline h _ ih =>
    rw [List.append_assoc, List.append_assoc]
    exact .line hline h ih

theorem rowsOf_of_endsChange {text text' : String} (h : EndsChange text text') :
    rowsOf text = rowsOf text' := by
  cases h with
  | carriageReturn before after =>
    obtain ⟨rows, hbefore⟩ := exists_tells before.toList
    obtain ⟨rows', hafter⟩ := exists_tells after.toList
    have htells := hbefore.append hafter
    have htells' := hbefore.concat_carriageReturn.append hafter
    rw [tells_iff.mp (by simpa using htells), tells_iff.mp (by simpa using htells')]
  | finalNewline =>
    obtain ⟨rows, h⟩ := exists_tells text.toList
    have htells := h.append (.last List.not_mem_nil (.blank .nil))
    rw [List.append_nil] at htells
    rw [tells_iff.mp h, tells_iff.mp (by simpa using htells)]

theorem rowsOf_of_eqvGen {text text' : String} (h : Relation.EqvGen EndsChange text text') :
    rowsOf text = rowsOf text' := by
  induction h with
  | rel _ _ h => exact rowsOf_of_endsChange h
  | refl => rfl
  | symm _ _ _ ih => exact ih.symm
  | trans _ _ _ _ _ ih ih' => exact ih.trans ih'

theorem Says.two_mul_length_le (h : Says line rows) :
    2 * (rows.flatMap Row.words).length ≤ line.length + 1 := by
  cases h with
  | comment rest => exact Nat.zero_le _
  | blank h => exact Nat.zero_le _
  | row _ h => simpa [Row.words] using h.two_mul_length_le.1

-- The words of a text are at most half as many as its characters, rounded up.
theorem Tells.two_mul_length_le (h : Tells chars rows) :
    2 * (rows.flatMap Row.words).length ≤ chars.length + 1 := by
  induction h with
  | last _ h => exact h.two_mul_length_le
  | line _ h _ ih =>
    have hfirst := h.two_mul_length_le
    rw [List.flatMap_append, List.length_append, List.length_append, List.length_cons]
    omega

end Text

/-! ## The graph of a text -/

namespace LabeledGraph

open Text (Row Tells EndsChange tells_iff rowsOf_of_eqvGen)

variable {l : LabeledGraph} {rows : List Row} {name : String} {v : Vertex} {text text' : String}

theorem IsOf.names_eq_some_iff (h : l.IsOf rows) :
    l.labels.names[v]? = some name ↔ name ∈ labelsOf rows ∧ v = idOf rows name := by
  rw [← Labels.find?_eq_some_iff, ← h.names]
  constructor
  · intro hfind
    have hmem : name ∈ l.labels.names.toList :=
      Array.mem_toList_iff.mpr (Array.mem_of_getElem? (Labels.find?_eq_some_iff.mp hfind))
    rw [Labels.find?_of_mem hmem, Option.some.injEq, h.names] at hfind
    exact ⟨hmem, hfind.symm⟩
  · rintro ⟨hmem, rfl⟩
    rw [Labels.find?_of_mem hmem, h.names]
    rfl

-- The vertices that a label points at are found under the labels that its rows name.
theorem IsOf.map_find? (h : l.IsOf rows) (hname : name ∈ labelsOf rows) :
    (targetsOf rows name).map l.labels.find? =
      (l.graph.targets (idOf rows name)).map some := by
  rw [h.targets name hname, List.map_map]
  apply List.map_congr_left
  intro target htarget
  have hmem := mem_labelsOf_of_mem_targetsOf htarget
  exact Labels.find?_eq_some_iff.mpr (h.names_eq_some_iff.mpr ⟨hmem, rfl⟩)

theorem ofBytes_congr (h : Text.rowsOf text = Text.rowsOf text') :
    ofBytes text.toUTF8 = ofBytes text'.toUTF8 := by
  rw [ofBytes_toUTF8, ofBytes_toUTF8, h]

theorem length_labelsOf_le (rows : List Row) :
    (labelsOf rows).length ≤ (rows.flatMap Row.words).length :=
  ((nodup_labelsOf rows).subperm fun _ => List.mem_eraseDups.mp).length_le

end LabeledGraph

end LocalityOrder
