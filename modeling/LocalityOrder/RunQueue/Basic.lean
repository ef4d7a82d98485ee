import LocalityOrder.RunTable
import LocalityOrder.Score

/-!
# Run queues

A run queue holds the ids `0, …, n - 1`, each with a key, and gives them out by descending key.
It is made for keys that rise by one at a time: all elements lie in one chain, sorted by key, and
an element whose key rises by one moves from its run to the end of the run before it, in constant
time.

Keys fall lazily.  A change of a key may be left pending, and a pending decrease is folded into the
key only when the element reaches the head of the queue (see `LocalityOrder.RunQueue.Extract`).  So
the key and the pending change together are always exact, and the order of the chain is that of the
keys alone.
-/

namespace LocalityOrder

/-- A queue of ids by descending key. -/
structure RunQueue where
  -- The elements, sorted by key; an id that was removed has no link.
  chain : Chain
  head : Option Vertex
  keys : Table Nat
  -- The changes that the keys do not show yet.
  pending : Table Score
  runs : RunTable
  -- The number of elements.
  size : Nat
deriving DecidableEq

namespace RunQueue

-- A queue holds fewer ids than this.
def capacity : Nat := 4294967294

def isEmpty (q : RunQueue) : Bool := q.size == 0

def isRemoved (q : RunQueue) (v : Vertex) : Except Fault Bool := do
  return (← q.chain.link? v).isNone

-- The key by which `v` is sorted.
def key (q : RunQueue) (v : Vertex) : Except Fault Nat := q.keys.get v

-- The pending change of `v`.
def pendingOf (q : RunQueue) (v : Vertex) : Except Fault Score := q.pending.get v

-- The key that `v` would have without pending changes.
def effectiveKey (q : RunQueue) (v : Vertex) : Except Fault Score := do
  let key ← q.key v
  let pending ← q.pendingOf v
  Score.add key pending

-- The elements in the order of the queue.
def toList (q : RunQueue) : Except Fault (List Vertex) := q.chain.walk q.size q.head

/-! ## Starting -/

/-- The queue of the `size` ids in `order`, which descends by key, over tables of all ids and a
table without runs. -/
def ofOrder (order : List Vertex) (size : Nat) (runs : RunTable) (chain : Chain)
    (keys : Table Nat) (pending : Table Score) : Except Fault RunQueue := do
  let chain ← chain.thread none order
  let runs ← order.foldlM (fun (runs : RunTable) v => do runs.append (← keys.get v) v) runs
  return { chain, head := order.head?, keys, pending, runs, size }

-- The queue of all ids below `n`, each with key zero.
def new (n : Nat) : Except Fault RunQueue :=
  if capacity ≤ n then .error (.tooManyElements n)
  else ofOrder (Vertex.all n) n (.forIds n) ⟨.filled n none⟩ (.filled n 0) (.filled n 0)

-- The key with which `v` is to start.
def startingKey (keys : Table Int) (v : Vertex) : Except Fault Nat := do
  let key ← keys.get v
  if key < 0 then throw (.negativeKey key v) else return key.toNat

/-- Gives each element its key anew and sorts the queue.  Elements with equal keys keep the order
of their ids; pending changes stay, and an id that was removed stays so. -/
def assignKeys (q : RunQueue) (keys : Table Int) : Except Fault RunQueue := do
  let live := q.chain.live
  let assigned ← live.foldlM
    (fun (assigned : Table Nat) v => do assigned.put v (← startingKey keys v)) q.keys
  let keyOf (v : Vertex) : Nat := assigned[v]?.getD 0
  let order := live.mergeSort fun v w => keyOf w ≤ keyOf v
  let largest := (order.head?.map keyOf).getD 0
  ofOrder order q.size (.forKeys largest q.keys.size) q.chain assigned q.pending

/-! ## Changing an element

Each change takes the queue apart and puts it together again, so that its tables have one owner at
a time and are changed in place.
-/

-- Adds to the pending change of `v`.
def addPending (q : RunQueue) (v : Vertex) (change : Score) : Except Fault RunQueue := do
  let { chain, head, keys, pending, runs, size } := q
  let changed ← Score.add (← pending.get v) change
  let pending ← pending.put v changed
  return { chain, head, keys, pending, runs, size }

-- Replaces the pending change of `v`.
def setPending (q : RunQueue) (v : Vertex) (change : Score) : Except Fault RunQueue := do
  let { chain, head, keys, pending, runs, size } := q
  let pending ← pending.put v change
  return { chain, head, keys, pending, runs, size }

-- The key after `key`, if a score can hold it.
def nextKey (key : Nat) : Except Fault Nat :=
  if key < 2147483647 then .ok (key + 1) else .error .overflow

-- Moves an element in front of the run of its key, which is the end of the run before it.
def moveToFront (c : Chain) (v : Vertex) (run : Run) : Except Fault Chain :=
  if run.first = v then
    return c
  else do
    let c ← c.unlink v
    let before := (← c.link run.first).before
    c.insertBetween v before (some run.first)

-- Raises the key of `v` by one.  An id that was removed is left alone.
def raise (q : RunQueue) (v : Vertex) : Except Fault RunQueue := do
  match ← q.chain.link? v with
  | none => return q
  | some link =>
    let { chain, head, keys, pending, runs, size } := q
    let key ← keys.get v
    let run ← runs.run key
    let chain ← moveToFront chain v run
    let raised ← nextKey key
    let keys ← keys.put v raised
    let runs ← runs.leave key v link
    let runs ← (runs.reserve raised).append raised v
    let headKey ← keys.get (← Chain.expect head)
    let head := if headKey < raised then some v else head
    return { chain, head, keys, pending, runs, size }

-- Removes `v` from the queue.  An id that was removed is left alone.
def remove (q : RunQueue) (v : Vertex) : Except Fault RunQueue := do
  match ← q.chain.link? v with
  | none => return q
  | some link =>
    let { chain, head, keys, pending, runs, size } := q
    let key ← keys.get v
    let chain ← chain.remove v
    let runs ← runs.leave key v link
    let head := if head = some v then link.after else head
    return { chain, head, keys, pending, runs, size := size - 1 }

end RunQueue

end LocalityOrder
