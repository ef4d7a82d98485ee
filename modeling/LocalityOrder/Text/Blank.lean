/-!
# Blanks

The characters that separate words are those of the Unicode property `White_Space`.  These are
more than `Char.isWhitespace` knows, and not all that show nothing: the separators U+001C to U+001F,
the zero width space U+200B, the byte order mark U+FEFF and the Mongolian vowel separator U+180E
belong to words.
-/

namespace LocalityOrder.Text

-- The ranges of the property, both ends included.
def blankRanges : List (Nat × Nat) :=
  [(0x0009, 0x000D), (0x0020, 0x0020), (0x0085, 0x0085), (0x00A0, 0x00A0),
   (0x1680, 0x1680), (0x2000, 0x200A), (0x2028, 0x2029), (0x202F, 0x202F),
   (0x205F, 0x205F), (0x3000, 0x3000)]

-- Whether a character separates words.
def isBlank (c : Char) : Bool :=
  blankRanges.any fun range => range.1 ≤ c.toNat && c.toNat ≤ range.2

-- the property has 25 characters
example : (blankRanges.map fun range => range.2 - range.1 + 1).sum = 25 := rfl

theorem isBlank_newline : isBlank '\n' = true := by decide

theorem isBlank_carriageReturn : isBlank '\r' = true := by decide

end LocalityOrder.Text
