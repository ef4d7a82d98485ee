import LocalityOrder.Command.Outcome
import LocalityOrder.Proofs.Checked

/-!
# Lines and words of a text

Only the newline has a newline byte in its encoding, so the lines of an encoded text are its lines
as characters, and every line is UTF-8 exactly if the whole text is.  A word is not empty and has no
blank in it, and a line that is one word has that word and no other.
-/

namespace LocalityOrder

namespace Text

variable {bytes line : ByteArray} {text name : String} {names : List String} {row : Row}

/-! ## Encoded lines -/

/-- The bytes of characters. -/
def encode (text : List Char) : List UInt8 := text.flatMap String.utf8EncodeChar

theorem toList_data_toUTF8 (text : String) : text.toUTF8.data.toList = encode text.toList := by
  show text.toByteArray.data.toList = _
  rw [← String.utf8Encode_toList]
  exact List.toList_data_toByteArray

theorem newline_mem_utf8EncodeChar {c : Char} (h : newline ∈ String.utf8EncodeChar c) :
    c = '\n' := by
  have hbyte : ∀ n : Nat, newline = UInt8.ofNat n ↔ n % 256 = 10 := fun n =>
    eq_comm.trans (UInt8.ofNat_eq_iff_mod_eq_toNat n newline)
  have hval : c.val.toNat = 10 := by
    unfold String.utf8EncodeChar at h
    dsimp only at h
    -- one case for each number of bytes; all bytes of a longer encoding are at least 128
    split at h
    · rw [List.mem_singleton, hbyte] at h
      omega
    · split at h
      · simp only [List.mem_cons, List.not_mem_nil, or_false, hbyte] at h
        omega
      · split at h
        · simp only [List.mem_cons, List.not_mem_nil, or_false, hbyte] at h
          omega
        · simp only [List.mem_cons, List.not_mem_nil, or_false, hbyte] at h
          omega
  exact Char.ext (UInt32.toNat_inj.mp hval)

theorem newline_mem_encode {piece : List Char} (h : newline ∈ encode piece) : '\n' ∈ piece := by
  obtain ⟨c, hc, hbyte⟩ := List.mem_flatMap.mp h
  exact newline_mem_utf8EncodeChar hbyte ▸ hc

theorem encode_intercalate : ∀ pieces : List (List Char),
    encode (['\n'].intercalate pieces) = [newline].intercalate (pieces.map encode)
  | [] => rfl
  | [piece] => by simp
  | piece :: next :: rest => by
    have ih := encode_intercalate (next :: rest)
    unfold encode at ih ⊢
    rw [List.intercalate_cons_cons, List.flatMap_append, List.flatMap_append, ih]
    simp [String.utf8EncodeChar, newline]

theorem fromUTF8?_eq_some_iff : String.fromUTF8? bytes = some text ↔ bytes = text.toUTF8 := by
  unfold String.fromUTF8?
  by_cases hbytes : bytes.IsValidUTF8
  · rw [dif_pos hbytes]
    constructor
    · intro h
      cases h
      rfl
    · rintro rfl
      rfl
  · rw [dif_neg hbytes]
    constructor
    · exact nofun
    · rintro rfl
      exact absurd text.isValidUTF8 hbytes

theorem fromUTF8?_eq_none_iff : String.fromUTF8? bytes = none ↔ ¬ bytes.IsValidUTF8 :=
  dite_eq_right_iff.trans (forall_congr' fun _ => iff_of_false nofun id)

theorem decode_eq_ok_iff : decode line = .ok text ↔ line = text.toUTF8 := by
  rw [← fromUTF8?_eq_some_iff, decode]
  cases String.fromUTF8? line with
  | some text' => simp
  | none => simp

theorem decode_of_not_isValidUTF8 (h : ¬ line.IsValidUTF8) :
    decode line = .error (.unreadable .invalidEncoding) := by
  rw [decode, fromUTF8?_eq_none_iff.mpr h]

-- What lies between the places at which a list is cut is not cut itself.
theorem not_of_mem_splitOnP {α : Type} {cut : α → Bool} {list piece : List α}
    (h : piece ∈ list.splitOnP cut) : ∀ a ∈ piece, cut a = false := by
  induction list generalizing piece with
  | nil =>
    rw [List.splitOnP_nil, List.mem_singleton] at h
    simp [h]
  | cons a rest ih =>
    rw [List.splitOnP_cons_eq_if_modifyHead] at h
    split at h
    next =>
      rcases List.mem_cons.mp h with rfl | hpiece
      · simp
      · exact ih hpiece
    next ha =>
      cases hrest : rest.splitOnP cut with
      | nil => exact absurd hrest (List.splitOnP_ne_nil cut rest)
      | cons first others =>
        rw [hrest, List.modifyHead_cons] at h
        rw [hrest] at ih
        rcases List.mem_cons.mp h with rfl | hpiece
        · simpa [ha] using ih List.mem_cons_self
        · exact ih (List.mem_cons_of_mem first hpiece)

/-- The lines of a text, as texts. -/
def pieces (text : String) : List String := (text.toList.splitOn '\n').map String.ofList

theorem splitOn_encode (text : List Char) :
    (encode text).splitOn newline = (text.splitOn '\n').map encode := by
  have hwhole : encode text = [newline].intercalate ((text.splitOn '\n').map encode) := by
    rw [← encode_intercalate, List.intercalate_splitOn]
  rw [hwhole]
  apply List.splitOn_intercalate
  · intro line hline hbyte
    obtain ⟨piece, hpiece, rfl⟩ := List.mem_map.mp hline
    simpa using not_of_mem_splitOnP hpiece '\n' (newline_mem_encode hbyte)
  · simp

theorem lines_toUTF8 (text : String) : lines text.toUTF8 = (pieces text).map String.toUTF8 := by
  rw [lines, toList_data_toUTF8, splitOn_encode, pieces, List.map_map, List.map_map]
  apply List.map_congr_left
  intro piece _
  apply ByteArray.ext
  apply Array.toList_inj.mp
  show encode piece = (String.ofList piece).toUTF8.data.toList
  rw [toList_data_toUTF8, String.toList_ofList]

-- The lines of any bytes, put together again with newline bytes between them, are the bytes.
theorem isValidUTF8_of_lines (h : lines bytes = names.map String.toUTF8) : bytes.IsValidUTF8 := by
  have hlines : bytes.data.toList.splitOn newline = (names.map String.toList).map encode :=
    calc bytes.data.toList.splitOn newline
      _ = (lines bytes).map fun line => line.data.toList := by
        rw [lines, List.map_map]
        exact (List.map_id _).symm
      _ = (names.map String.toList).map encode := by
        rw [h, List.map_map, List.map_map]
        exact List.map_congr_left fun name _ => toList_data_toUTF8 name
  have hwhole : bytes = (String.ofList (['\n'].intercalate (names.map String.toList))).toUTF8 := by
    apply ByteArray.ext
    apply Array.toList_inj.mp
    rw [toList_data_toUTF8, String.toList_ofList, encode_intercalate, ← hlines,
      List.intercalate_splitOn]
  rw [hwhole]
  exact String.isValidUTF8 _

/-- The rows of a text that is read as characters. -/
def rowsOf (text : String) : List Row := (pieces text).filterMap Row.ofLine?

/-- The texts of the lines in front of the first one that is not UTF-8. -/
def front : List ByteArray → List String
  | [] => []
  | line :: rest =>
      match String.fromUTF8? line with
      | some text => text :: front rest
      | none => []

theorem front_map_toUTF8 (names : List String) : front (names.map String.toUTF8) = names := by
  induction names with
  | nil => rfl
  | cons name rest ih => rw [List.map_cons, front, fromUTF8?_eq_some_iff.mpr rfl, ih]

-- A line that is not UTF-8 comes after those in front, or there is none.
theorem eq_front_or_exists (list : List ByteArray) : list = (front list).map String.toUTF8 ∨
    ∃ line after, list = (front list).map String.toUTF8 ++ line :: after ∧ ¬ line.IsValidUTF8 := by
  induction list with
  | nil => exact .inl rfl
  | cons line rest ih =>
    rw [front]
    cases htext : String.fromUTF8? line with
    | none => exact .inr ⟨line, rest, rfl, fromUTF8?_eq_none_iff.mp htext⟩
    | some text =>
      obtain rfl := fromUTF8?_eq_some_iff.mp htext
      rcases ih with hall | ⟨bad, after, hrest, hbad⟩
      · exact .inl (congrArg (text.toUTF8 :: ·) hall)
      · exact .inr ⟨bad, after, congrArg (text.toUTF8 :: ·) hrest, hbad⟩

/-- The rows of the lines in front of the first one that is not UTF-8. -/
def frontRows (bytes : ByteArray) : List Row := (front (lines bytes)).filterMap Row.ofLine?

theorem frontRows_toUTF8 (text : String) : frontRows text.toUTF8 = rowsOf text := by
  rw [frontRows, lines_toUTF8, front_map_toUTF8, rowsOf]

-- Wherever the fault is, some line has it.
theorem exists_line_of_not_isValidUTF8 (h : ¬ bytes.IsValidUTF8) :
    ∃ line after, lines bytes = (front (lines bytes)).map String.toUTF8 ++ line :: after ∧
      ¬ line.IsValidUTF8 := by
  rcases eq_front_or_exists (lines bytes) with hall | hbad
  · exact absurd (isValidUTF8_of_lines hall) h
  · exact hbad

/-! ## Words -/

/-- A label as it is read from a text: not empty and without blanks. -/
def IsWord (name : String) : Prop := name.toList ≠ [] ∧ ∀ c ∈ name.toList, isBlank c = false

theorem isWord_of_mem_words (h : name ∈ words text) : IsWord name := by
  obtain ⟨piece, hpiece, rfl⟩ := List.mem_map.mp h
  obtain ⟨hcut, hne⟩ := List.mem_filter.mp hpiece
  rw [IsWord, String.toList_ofList]
  exact ⟨by simpa using hne, not_of_mem_splitOnP hcut⟩

theorem IsWord.words_eq (h : IsWord name) : words name = [name] := by
  obtain ⟨hne, hblank⟩ := h
  rw [words, List.splitOnP_eq_singleton hblank, List.filter_cons_of_pos (by simpa using hne)]
  simp

theorem IsWord.newline_notMem (h : IsWord name) : '\n' ∉ name.toList := by
  intro hmem
  have hblank := h.2 '\n' hmem
  rw [isBlank_newline] at hblank
  cases hblank

theorem isWord_of_mem_rowsOf (hrow : row ∈ rowsOf text) (hname : name ∈ row.words) :
    IsWord name := by
  obtain ⟨line, -, hline⟩ := List.mem_filterMap.mp hrow
  unfold Row.ofLine? at hline
  split at hline
  · cases hline
  · split at hline
    · cases hline
    next head targets hwords =>
      cases hline
      have hmem : name ∈ words line := by
        rw [hwords]
        exact hname
      exact isWord_of_mem_words hmem

/-! ## Labels put in front of a text -/

theorem IsWord.ofLine?_eq (h : IsWord name) (hcomment : name.toList.head? ≠ some '#') :
    Row.ofLine? name = some ⟨name, []⟩ := by
  have hnot : isComment name = false := by simpa [isComment] using hcomment
  rw [Row.ofLine?, hnot, if_neg (by decide), h.words_eq]

open Command in
theorem pieces_unlines_append (h : ∀ name ∈ names, '\n' ∉ name.toList) (text : String) :
    pieces (unlines names ++ text) = names ++ pieces text := by
  induction names with
  | nil => simp [unlines]
  | cons name rest ih =>
    have hchars : (unlines (name :: rest) ++ text).toList =
        name.toList ++ '\n' :: (unlines rest ++ text).toList := by
      simp [unlines]
    rw [pieces, hchars, List.splitOn_append_cons_self_of_not_mem (h name List.mem_cons_self),
      List.map_cons, String.ofList_toList]
    show name :: pieces (unlines rest ++ text) = _
    rw [ih fun other hother => h other (List.mem_cons_of_mem name hother)]
    rfl

end Text

end LocalityOrder
