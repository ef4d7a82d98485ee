import LocalityOrder.Error
import LocalityOrder.Text.Blank

/-!
# Rows of words

A text is cut into lines at each newline byte, and every line has to be UTF-8 by itself.  A line
that starts with `#` is a comment.  Any other line that holds a word is a row: its first word is its
head, and the words after it are its targets.

A carriage return before the newline is a blank, so it needs no rule of its own, and what follows
the last newline is an empty line or a line like the others.
-/

namespace LocalityOrder

namespace Text

-- The byte that ends a line.
def newline : UInt8 := 0x0A

-- The lines of a text.
def lines (bytes : ByteArray) : List ByteArray :=
  (bytes.data.toList.splitOn newline).map fun line => ⟨line.toArray⟩

-- The characters of a line.
def decode (line : ByteArray) : Except Rejection String :=
  match String.fromUTF8? line with
  | some text => .ok text
  | none => .error (.unreadable .invalidEncoding)

-- The words of a line: what lies between blanks.
def words (line : String) : List String :=
  ((line.toList.splitOnP isBlank).filter fun word => !word.isEmpty).map String.ofList

-- Whether a line is a comment.
def isComment (line : String) : Bool := line.toList.head? == some '#'

/-- A line that says something. -/
structure Row where
  head : String
  targets : List String
deriving DecidableEq, Repr

namespace Row

-- The row of a line, if it is neither a comment nor blank.
def ofLine? (line : String) : Option Row :=
  if isComment line then none
  else match words line with
    | [] => none
    | head :: targets => some ⟨head, targets⟩

-- The words of a row.
def words (row : Row) : List String := row.head :: row.targets

end Row

end Text

end LocalityOrder
