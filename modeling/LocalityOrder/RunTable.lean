import LocalityOrder.Chain

/-!
# Runs

In a chain that is sorted by key, the elements with one key lie next to each other: they form a
run.  The run table holds the first and the last element of the run of each key, so that an
element can be put at either end of a run without walking along the chain.
-/

namespace LocalityOrder

/-- The ends of a run. -/
structure Run where
  first : Vertex
  last : Vertex
deriving DecidableEq

/-- The runs by key. -/
abbrev RunTable := Table (Option Run)

namespace RunTable

-- How many keys beyond the largest one in use the table has room for.
def headroom : Nat := 4

-- The table without runs for a new queue of `size` ids.
def forIds (size : Nat) : RunTable := .filled (max headroom (size / 16)) none

-- A table without runs for keys up to `key` of a queue with `size` ids.
def forKeys (key size : Nat) : RunTable := .filled (max (key + 1 + headroom) (size / 16)) none

-- The run of a key that is in use.
def run (runs : RunTable) (key : Nat) : Except Fault Run := do
  match ← runs.get key with
  | some run => return run
  | none => throw .indexOutOfBounds

/-- The table with room for `key` and a few keys more.  A table that has to grow grows by half, so
that growing costs little in the long run. -/
def reserve (runs : RunTable) (key : Nat) : RunTable :=
  if key + headroom < runs.size then runs
  else runs.growTo (max (runs.size * 3 / 2) (key + headroom + 1)) none

-- Puts `v` at the end of the run of `key`.
def append (runs : RunTable) (key : Nat) (v : Vertex) : Except Fault RunTable := do
  match ← runs.get key with
  | some run => runs.put key (some ⟨run.first, v⟩)
  | none => runs.put key (some ⟨v, v⟩)

-- Takes `v`, which had the given neighbors, out of the run of `key`.
def leave (runs : RunTable) (key : Nat) (v : Vertex) (link : Link) : Except Fault RunTable := do
  let run ← runs.run key
  if run.first = run.last then
    runs.put key none
  else if run.first = v then
    runs.put key (some ⟨← Chain.expect link.after, run.last⟩)
  else if run.last = v then
    runs.put key (some ⟨run.first, ← Chain.expect link.before⟩)
  else
    return runs

end RunTable

end LocalityOrder
