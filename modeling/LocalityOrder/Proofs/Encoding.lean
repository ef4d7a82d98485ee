import LocalityOrder.Proofs.Grammar

/-!
# Which texts are rejected

Every character takes the bytes of one row of a table, and bytes are well-formed if they are those
of characters, one after the other.  This is what it means to be UTF-8.  Only a character by itself
has a newline byte, so bytes are well-formed exactly if all their lines are, and a text is rejected
exactly if its bytes are not well-formed.
-/

namespace LocalityOrder

namespace Text

variable {bytes : ByteArray} {piece : List UInt8} {v : Nat} {a b c d : UInt8}

/-! ## The bytes of a character -/

/-- The ranges, both ends included, in which the bytes of a character lie.  The second byte has a
narrower range where the full one would spell a character that a shorter row has (`E0`, `F0`), a
surrogate (`ED`) or something beyond the last character (`F4`). -/
def byteRows : List (List (Nat × Nat)) :=
  [[(0x00, 0x7F)],
   [(0xC2, 0xDF), (0x80, 0xBF)],
   [(0xE0, 0xE0), (0xA0, 0xBF), (0x80, 0xBF)],
   [(0xE1, 0xEC), (0x80, 0xBF), (0x80, 0xBF)],
   [(0xED, 0xED), (0x80, 0x9F), (0x80, 0xBF)],
   [(0xEE, 0xEF), (0x80, 0xBF), (0x80, 0xBF)],
   [(0xF0, 0xF0), (0x90, 0xBF), (0x80, 0xBF), (0x80, 0xBF)],
   [(0xF1, 0xF3), (0x80, 0xBF), (0x80, 0xBF), (0x80, 0xBF)],
   [(0xF4, 0xF4), (0x80, 0x8F), (0x80, 0xBF), (0x80, 0xBF)]]

def InRange (range : Nat × Nat) (byte : UInt8) : Prop :=
  range.1 ≤ byte.toNat ∧ byte.toNat ≤ range.2

/-- These are the bytes of one character. -/
def IsOneCharacter (bytes : List UInt8) : Prop := ∃ row ∈ byteRows, List.Forall₂ InRange row bytes

/-- These are the bytes of characters that follow each other. -/
inductive WellFormed : List UInt8 → Prop
  | nil : WellFormed []
  | character {piece rest : List UInt8} (hpiece : IsOneCharacter piece) (h : WellFormed rest) :
      WellFormed (piece ++ rest)

theorem isOneCharacter_one : IsOneCharacter [a] ↔ a.toNat ≤ 0x7F := by
  simp [IsOneCharacter, byteRows, InRange]

theorem isOneCharacter_two : IsOneCharacter [a, b] ↔
    (0xC2 ≤ a.toNat ∧ a.toNat ≤ 0xDF) ∧ 0x80 ≤ b.toNat ∧ b.toNat ≤ 0xBF := by
  simp [IsOneCharacter, byteRows, InRange]

theorem isOneCharacter_three : IsOneCharacter [a, b, c] ↔
    (0xE0 ≤ a.toNat ∧ a.toNat ≤ 0xEF) ∧ (0x80 ≤ b.toNat ∧ b.toNat ≤ 0xBF) ∧
      (0x80 ≤ c.toNat ∧ c.toNat ≤ 0xBF) ∧
      (a.toNat = 0xE0 → 0xA0 ≤ b.toNat) ∧ (a.toNat = 0xED → b.toNat ≤ 0x9F) := by
  simp only [IsOneCharacter, byteRows, InRange, List.mem_cons, List.not_mem_nil, or_false,
    exists_eq_or_imp, ↓existsAndEq, List.forall₂_cons, List.forall₂_nil_left_iff,
    List.forall₂_nil_right_iff, List.cons_ne_self, reduceCtorEq, and_true, and_false, false_or]
  omega

theorem isOneCharacter_four : IsOneCharacter [a, b, c, d] ↔
    (0xF0 ≤ a.toNat ∧ a.toNat ≤ 0xF4) ∧ (0x80 ≤ b.toNat ∧ b.toNat ≤ 0xBF) ∧
      (0x80 ≤ c.toNat ∧ c.toNat ≤ 0xBF) ∧ (0x80 ≤ d.toNat ∧ d.toNat ≤ 0xBF) ∧
      (a.toNat = 0xF0 → 0x90 ≤ b.toNat) ∧ (a.toNat = 0xF4 → b.toNat ≤ 0x8F) := by
  simp only [IsOneCharacter, byteRows, InRange, List.mem_cons, List.not_mem_nil, or_false,
    exists_eq_or_imp, ↓existsAndEq, List.forall₂_cons, List.forall₂_nil_left_iff,
    List.forall₂_nil_right_iff, List.cons_ne_self, reduceCtorEq, and_true, true_and,
    and_false, false_or]
  omega

theorem isOneCharacter_utf8EncodeChar (c : Char) : IsOneCharacter (String.utf8EncodeChar c) := by
  have hvalid : c.val.toNat.isValidChar := c.valid
  unfold String.utf8EncodeChar
  dsimp only
  -- one case for each number of bytes
  split
  · rw [isOneCharacter_one, UInt8.toNat_ofNat']
    omega
  · split
    · rw [isOneCharacter_two, UInt8.toNat_ofNat', UInt8.toNat_ofNat']
      omega
    · split
      · rw [isOneCharacter_three, UInt8.toNat_ofNat', UInt8.toNat_ofNat', UInt8.toNat_ofNat']
        omega
      · rw [isOneCharacter_four, UInt8.toNat_ofNat', UInt8.toNat_ofNat', UInt8.toNat_ofNat',
          UInt8.toNat_ofNat']
        omega

theorem utf8EncodeChar_ofNat (h : v.isValidChar) : String.utf8EncodeChar (Char.ofNat v) =
    if v ≤ 0x7F then [.ofNat v]
    else if v ≤ 0x7FF then [.ofNat (v / 64 % 32 + 0xC0), .ofNat (v % 64 + 0x80)]
    else if v ≤ 0xFFFF then
      [.ofNat (v / 4096 % 16 + 0xE0), .ofNat (v / 64 % 64 + 0x80), .ofNat (v % 64 + 0x80)]
    else [.ofNat (v / 262144 % 8 + 0xF0), .ofNat (v / 4096 % 64 + 0x80),
      .ofNat (v / 64 % 64 + 0x80), .ofNat (v % 64 + 0x80)] := by
  have hval : (Char.ofNat v).val.toNat = v := (Char.toNat_ofNat v).trans (if_pos h)
  unfold String.utf8EncodeChar
  dsimp only
  rw [hval]

-- The number of the character is put together from the bits that its bytes carry.
theorem IsOneCharacter.exists_utf8EncodeChar (h : IsOneCharacter piece) :
    ∃ c, String.utf8EncodeChar c = piece := by
  have hbyte : ∀ n (byte : UInt8), n = byte.toNat → UInt8.ofNat n = byte := fun n byte hn =>
    hn ▸ UInt8.ofNat_toNat
  match piece, h with
  | [], h => simp [IsOneCharacter, byteRows] at h
  | [a], h =>
    rw [isOneCharacter_one] at h
    refine ⟨.ofNat a.toNat, ?_⟩
    rw [utf8EncodeChar_ofNat (by omega), if_pos h, UInt8.ofNat_toNat]
  | [a, b], h =>
    rw [isOneCharacter_two] at h
    refine ⟨.ofNat ((a.toNat - 0xC0) * 64 + (b.toNat - 0x80)), ?_⟩
    rw [utf8EncodeChar_ofNat (by omega), if_neg (by omega), if_pos (by omega),
      hbyte _ a (by omega), hbyte _ b (by omega)]
  | [a, b, c], h =>
    rw [isOneCharacter_three] at h
    refine ⟨.ofNat ((a.toNat - 0xE0) * 4096 + (b.toNat - 0x80) * 64 + (c.toNat - 0x80)), ?_⟩
    rw [utf8EncodeChar_ofNat (by omega), if_neg (by omega), if_neg (by omega), if_pos (by omega),
      hbyte _ a (by omega), hbyte _ b (by omega), hbyte _ c (by omega)]
  | [a, b, c, d], h =>
    rw [isOneCharacter_four] at h
    refine ⟨.ofNat ((a.toNat - 0xF0) * 262144 + (b.toNat - 0x80) * 4096 + (c.toNat - 0x80) * 64 +
      (d.toNat - 0x80)), ?_⟩
    rw [utf8EncodeChar_ofNat (by omega), if_neg (by omega), if_neg (by omega), if_neg (by omega),
      hbyte _ a (by omega), hbyte _ b (by omega), hbyte _ c (by omega), hbyte _ d (by omega)]
  | _ :: _ :: _ :: _ :: _ :: _, h => simp [IsOneCharacter, byteRows] at h

theorem wellFormed_iff_exists_encode : WellFormed piece ↔ ∃ text, piece = encode text := by
  constructor
  · intro h
    induction h with
    | nil => exact ⟨[], rfl⟩
    | character hpiece _ ih =>
      obtain ⟨c, rfl⟩ := hpiece.exists_utf8EncodeChar
      obtain ⟨text, rfl⟩ := ih
      exact ⟨c :: text, rfl⟩
  · rintro ⟨text, rfl⟩
    induction text with
    | nil => exact .nil
    | cons c text ih => exact .character (isOneCharacter_utf8EncodeChar c) ih

theorem wellFormed_iff : WellFormed bytes.data.toList ↔ bytes.IsValidUTF8 := by
  rw [wellFormed_iff_exists_encode]
  constructor
  · rintro ⟨text, htext⟩
    refine ⟨text, ByteArray.ext (Array.toList_inj.mp ?_)⟩
    exact htext.trans List.toList_data_toByteArray.symm
  · rintro ⟨text, rfl⟩
    exact ⟨text, List.toList_data_toByteArray⟩

/-! ## Lines -/

theorem isValidUTF8_iff_lines :
    bytes.IsValidUTF8 ↔ ∀ line ∈ lines bytes, line.IsValidUTF8 := by
  constructor
  · intro h line hline
    have hbytes : bytes = (String.fromUTF8 bytes h).toUTF8 := rfl
    rw [hbytes, lines_toUTF8] at hline
    obtain ⟨piece, -, rfl⟩ := List.mem_map.mp hline
    exact piece.isValidUTF8
  · intro h
    have hnames : ∃ names : List String, lines bytes = names.map String.toUTF8 := by
      refine ⟨(lines bytes).pmap String.fromUTF8 h, ?_⟩
      rw [List.map_pmap]
      exact (List.pmap_eq_self.mpr fun line _ => rfl).symm
    obtain ⟨names, hnames⟩ := hnames
    exact isValidUTF8_of_lines hnames

theorem length_le_size_toUTF8 (text : String) : text.length ≤ text.toUTF8.size := by
  have hpos : ∀ n ∈ text.toList.map fun c => (String.utf8EncodeChar c).length, 1 ≤ n := by
    intro n hn
    obtain ⟨c, -, rfl⟩ := List.mem_map.mp hn
    rw [String.length_utf8EncodeChar]
    exact c.utf8Size_pos
  calc text.length
    _ = (text.toList.map fun c => (String.utf8EncodeChar c).length).length := by
      rw [List.length_map, String.length_toList]
    _ ≤ (encode text.toList).length := by
      rw [encode, List.length_flatMap]
      exact List.length_le_sum_of_one_le _ hpos
    _ = text.toUTF8.size := by
      rw [← toList_data_toUTF8]
      rfl

-- Each line but the last has a newline byte after it.
theorem sum_length_splitOn (list : List UInt8) :
    ((list.splitOn newline).map fun line => line.length + 1).sum = list.length + 1 := by
  induction list with
  | nil => rfl
  | cons byte rest ih =>
    rw [List.splitOn, List.splitOnP_cons_eq_if_modifyHead]
    rw [List.splitOn] at ih
    split
    · rw [List.map_cons, List.sum_cons, ih, List.length_nil, List.length_cons]
      omega
    · cases hlines : rest.splitOnP (· == newline) with
      | nil => exact absurd hlines (List.splitOnP_ne_nil _ rest)
      | cons line others =>
        rw [hlines, List.map_cons, List.sum_cons] at ih
        rw [List.modifyHead_cons, List.map_cons, List.sum_cons, List.length_cons, List.length_cons]
        omega

theorem sum_size_lines (bytes : ByteArray) :
    ((lines bytes).map fun line => line.size + 1).sum = bytes.size + 1 := by
  have hsize : (lines bytes).map (fun line => line.size + 1) =
      (bytes.data.toList.splitOn newline).map fun line => line.length + 1 := by
    rw [lines, List.map_map]
    rfl
  rw [hsize, sum_length_splitOn]
  rfl

theorem two_mul_length_words_le (names : List String) :
    2 * ((names.filterMap Row.ofLine?).flatMap Row.words).length ≤
      ((names.map String.toUTF8).map fun line => line.size + 1).sum := by
  induction names with
  | nil => exact Nat.zero_le _
  | cons name rest ih =>
    obtain ⟨rows, hsays⟩ := exists_says name.toList
    have hrow := hsays.ofLine?_eq
    rw [String.ofList_toList] at hrow
    have hwords := hsays.two_mul_length_le
    rw [String.length_toList] at hwords
    have hbytes := length_le_size_toUTF8 name
    rw [List.filterMap_eq_flatMap_toList, List.flatMap_cons, hrow, List.flatMap_append,
      List.length_append, List.map_cons, List.map_cons, List.sum_cons]
    rw [List.filterMap_eq_flatMap_toList] at ih
    omega

-- The words of the lines in front of a fault are at most half as many as the bytes, rounded up.
theorem two_mul_length_frontRows_le (bytes : ByteArray) :
    2 * ((frontRows bytes).flatMap Row.words).length ≤ bytes.size + 1 := by
  refine (two_mul_length_words_le (front (lines bytes))).trans ?_
  rw [← sum_size_lines bytes]
  rcases eq_front_or_exists (lines bytes) with hall | ⟨line, after, hlines, -⟩
  · rw [← hall]
  · conv => rhs; rw [hlines, List.map_append, List.sum_append]
    exact Nat.le_add_right _ _

end Text

/-! ## Reading -/

namespace LabeledGraph

open Text (WellFormed wellFormed_iff isOneCharacter_one isOneCharacter_two isValidUTF8_iff_lines
  length_le_size_toUTF8)

variable {bytes : ByteArray} {l : LabeledGraph} {e : Error}

theorem ofBytes_of_le (h : (labelsOf (Text.frontRows bytes)).length ≤ Vertex.largest + 1) :
    (bytes.IsValidUTF8 ∧ ∃ l, ofBytes bytes = .ok l) ∨
      ¬ bytes.IsValidUTF8 ∧ ofBytes bytes = .error (.rejected (.unreadable .invalidEncoding)) := by
  by_cases hvalid : bytes.IsValidUTF8
  · have hbytes : bytes = (String.fromUTF8 bytes hvalid).toUTF8 := rfl
    rw [hbytes, Text.frontRows_toUTF8] at h
    obtain ⟨l, hl, -⟩ := exists_ofBytes h
    exact .inl ⟨hvalid, l, hl⟩
  · exact .inr ⟨hvalid, ofBytes_of_le_of_not_isValidUTF8 h hvalid⟩

end LabeledGraph

end LocalityOrder
