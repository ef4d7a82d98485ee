import LocalityOrder.Vertex

/-!
# What can go wrong

A `Rejection` is a verdict on the input: the caller handed in something that is no graph, no
window, no permutation or no readable text.  A `Fault` stops a computation whose own assumptions
broke: a place outside a table, a score outside its range, an empty queue.  Each names its cause;
the wording is in the `message` functions and nowhere else.
-/

namespace LocalityOrder

/-- What keeps a list of ids from being a permutation. -/
inductive OrderDefect where
  -- The id does not occur in any permutation of this length.
  | outOfRange (id : Vertex)
  -- The id was already given a place.
  | repeated (id : Vertex)
deriving DecidableEq, Repr

/-- Why a text could not be read. -/
inductive Unreadable where
  -- The bytes are not UTF-8.
  | invalidEncoding
  -- There is no file of that name.
  | missing
  -- The name is that of a directory.
  | directory
  -- The system gave another reason.
  | other (description : String)
deriving DecidableEq, Repr

/-- Input that is refused. -/
inductive Rejection where
  -- `vertex` points at `neighbor`, which is no vertex of a graph with `count` vertices.
  | vertexOutOfRange (vertex neighbor : Vertex) (count : Nat)
  -- A window must hold at least one vertex.
  | invalidWindow
  -- The list of this length has a defect.
  | notAPermutation (length : Nat) (defect : OrderDefect)
  -- A buffer of this length does not divide into slots of this width.
  | invalidPadding (length width : Nat)
  -- The text could not be read.
  | unreadable (cause : Unreadable)
deriving DecidableEq, Repr

/-- What a renumbering is asked to cover. -/
inductive Covered where
  | graph
  | values
deriving DecidableEq, Repr

/-- A computation that had to stop. -/
inductive Fault where
  -- A table was read or written outside its places.
  | indexOutOfBounds
  -- A score left its range.
  | overflow
  -- The best element of an empty queue was asked for.
  | emptyQueue
  -- An element was to start with a negative key.
  | negativeKey (key : Int) (vertex : Vertex)
  -- A queue cannot hold this many elements.
  | tooManyElements (count : Nat)
  -- A transpose cannot hold this many edges.
  | tooManyEdges (count : Nat)
  -- No vertex has this id.
  | idTooLarge (index : Nat)
  -- A renumbering and what it is asked to cover differ in size.
  | sizeMismatch (covered : Covered) (left right : Nat)
  -- The placed vertices do not form a permutation.
  | invalidOrder (rejection : Rejection)
  -- A queue was not settled within the steps that suffice for every sorted queue.
  | unsettled
deriving DecidableEq, Repr

/-- Every way in which a computation of this library ends without a result. -/
inductive Error where
  | rejected (cause : Rejection)
  | fault (cause : Fault)
deriving DecidableEq, Repr

namespace OrderDefect

def message : OrderDefect → String
  | .outOfRange id => s!"{id} is out of range"
  | .repeated id => s!"{id} appears twice"

end OrderDefect

namespace Unreadable

def message : Unreadable → String
  | .invalidEncoding => "stream did not contain valid UTF-8"
  | .missing => "No such file or directory (os error 2)"
  | .directory => "Is a directory (os error 21)"
  | .other description => description

end Unreadable

namespace Rejection

def message : Rejection → String
  | .vertexOutOfRange vertex neighbor count =>
      s!"vertex {vertex} has neighbor {neighbor}, but the graph only has {count} vertices"
  | .invalidWindow => "window size must be at least 1"
  | .notAPermutation length defect => s!"not a permutation of 0..{length}: " ++ defect.message
  | .invalidPadding length width =>
      s!"padded neighbor buffer of length {length} isn't a multiple of max degree {width}"
  | .unreadable cause => "I/O error: " ++ cause.message

end Rejection

namespace Covered

def noun : Covered → String
  | .graph => "graph"
  | .values => "values"

end Covered

namespace Fault

def message : Fault → String
  | .indexOutOfBounds => "index out of bounds"
  | .overflow => "arithmetic overflow"
  | .emptyQueue => "extract_max on an empty queue"
  | .negativeKey key vertex => s!"negative initial key {key} for " ++ vertex.label
  | .tooManyElements count => s!"too many elements: {count}"
  | .tooManyEdges count => s!"too many edges: {count}"
  | .idTooLarge index => s!"vertex index {index} overflows u32"
  | .sizeMismatch covered left right =>
      "assertion `left == right` failed: permutation doesn't cover the " ++ covered.noun
        ++ s!"\n  left: {left}\n right: {right}"
  | .invalidOrder rejection => "reordering produced an invalid order: " ++ rejection.message
  | .unsettled => "the queue did not settle"

end Fault

namespace Error

def message : Error → String
  | .rejected cause => cause.message
  | .fault cause => cause.message

end Error

namespace Vertex

-- The vertex at a place of a numbering, if the id has a name.
def ofIndex (index : Nat) : Except Fault Vertex :=
  if index ≤ largest then .ok index else .error (.idTooLarge index)

-- The ids of a graph with `n` vertices, ascending, if all of them have names.
def named (n : Nat) : Except Fault (List Vertex) := (all n).mapM ofIndex

end Vertex

end LocalityOrder
