import LocalityOrder.RunQueue.Operation

/-!
# Ranked lists

The plain counterpart of a run queue: the elements as a list by descending key, and every move a
removal followed by an insertion.  A ranked list gives the same answers to the same history as a
run queue; it says what a run queue computes, and the run queue computes it without searching.
What becomes of a key is said here in the list's own words, by plain subtraction.
-/

namespace LocalityOrder

/-- A queue of ids by descending key, as a list. -/
structure RankedList where
  order : List Vertex
  keys : Table Nat
  pending : Table Score
  removed : Table Bool
deriving DecidableEq

namespace RankedList

open RunQueue (Operation Answer)

-- The key by which an id is sorted, zero for what is no id.
def keyOf (r : RankedList) (v : Vertex) : Nat := r.keys[v]?.getD 0

-- The list of all ids below `n`, each with key zero.
def new (n : Nat) : Except Fault RankedList :=
  if RunQueue.capacity ≤ n then .error (.tooManyElements n)
  else .ok ⟨Vertex.all n, .filled n 0, .filled n 0, .filled n false⟩

/-! ## Keys -/

/-- The key after `key`. -/
def raisedKey (key : Nat) : Except Fault Nat :=
  if Score.Fits (key + 1) then .ok (key + 1) else .error .overflow

/-- The key that `v` is given. -/
def givenKey (keys : Table Int) (v : Vertex) : Except Fault Nat := do
  match ← keys.get v with
  | .ofNat key => return key
  | .negSucc below => throw (.negativeKey (.negSucc below) v)

/-- A key without half of the pending decrease, rounded up. -/
def foldedKey (key : Nat) (pending : Int) : Nat := key - (pending.natAbs + 1) / 2

/-- The folded key and the decrease that is then left, if all that is computed is in range. -/
def folded (key : Nat) (pending : Int) : Except Fault (Nat × Score) :=
  let half : Nat := (pending.natAbs + 1) / 2
  let left : Int := key + pending - foldedKey key pending
  if Score.Fits (key + pending) ∧ Score.Fits (key - half) ∧ Score.Fits left then
    .ok (foldedKey key pending, left)
  else
    .error .overflow

/-! ## Operations -/

/-- Raises the key of `v` by one and puts `v` before the first element whose key is not above the
old one. -/
def raise (r : RankedList) (v : Vertex) : Except Fault RankedList := do
  if ← r.removed.get v then
    return r
  let key ← r.keys.get v
  let raised ← raisedKey key
  let others := r.order.erase v
  return { r with
    order := others.takeWhile (fun w => key < r.keyOf w) ++
      v :: others.dropWhile (fun w => key < r.keyOf w)
    keys := ← r.keys.put v raised }

def addPending (r : RankedList) (v : Vertex) (change : Score) : Except Fault RankedList := do
  let changed ← Score.add (← r.pending.get v) change
  return { r with pending := ← r.pending.put v changed }

def setPending (r : RankedList) (v : Vertex) (change : Score) : Except Fault RankedList := do
  return { r with pending := ← r.pending.put v change }

def remove (r : RankedList) (v : Vertex) : Except Fault RankedList := do
  if ← r.removed.get v then
    return r
  return { r with order := r.order.erase v, removed := ← r.removed.put v true }

-- Gives each element its key anew and lists the elements by descending key, then by id.
def assignKeys (r : RankedList) (keys : Table Int) : Except Fault RankedList := do
  let live := (Vertex.all r.removed.size).filter fun v => r.removed[v]? == some false
  let assigned ← live.foldlM
    (fun (assigned : Table Nat) v => do assigned.put v (← givenKey keys v)) r.keys
  let r := { r with keys := assigned }
  return { r with order := live.mergeSort fun v w => r.keyOf w ≤ r.keyOf v }

/-- Folds the pending decrease of the first element and, if it then no longer comes first, puts it
after the last element whose key is not below its new one.  Tells whether it did. -/
def sinkHead (r : RankedList) : Except Fault (Bool × RankedList) :=
  match r.order with
  | v :: next :: rest => do
      let pending ← r.pending.get v
      if 0 ≤ pending then
        return (false, r)
      let (lower, left) ← folded (← r.keys.get v) pending
      if r.keyOf next ≤ lower then
        return (false, r)
      let others := next :: rest
      return (true, { r with
        order := others.takeWhile (fun w => lower ≤ r.keyOf w) ++
          v :: others.dropWhile (fun w => lower ≤ r.keyOf w)
        keys := ← r.keys.put v lower
        pending := ← r.pending.put v left })
  | _ => .ok (false, r)

-- Sinks first elements until one stays.
def settle : (fuel : Nat) → RankedList → Except Fault RankedList
  | 0, _ => .error .unsettled
  | fuel + 1, r => do
      match ← r.sinkHead with
      | (false, r) => return r
      | (true, r) => settle fuel r

-- Removes the best element and returns it.
def extractMax (r : RankedList) : Except Fault (Vertex × RankedList) := do
  match r.order with
  | [] => throw .emptyQueue
  | first :: _ =>
    let r ← settle (r.order.length * r.keyOf first + 1) r
    match r.order with
    | [] => throw .emptyQueue
    | v :: _ => return (v, ← r.remove v)

-- Carries out one operation.
def perform (r : RankedList) : Operation → Except Fault (Answer × RankedList)
  | .raise v => return (.done, ← r.raise v)
  | .addPending v change => return (.done, ← r.addPending v change)
  | .setPending v change => return (.done, ← r.setPending v change)
  | .remove v => return (.done, ← r.remove v)
  | .assignKeys keys => return (.done, ← r.assignKeys keys)
  | .extractMax => do
      let (v, r) ← r.extractMax
      return (.vertex (some v), r)
  | .key v => return (.number (← r.keys.get v), r)
  | .pending v => return (.number (← r.pending.get v), r)
  | .effectiveKey v => return (.number (← Score.add (← r.keys.get v) (← r.pending.get v)), r)
  | .isRemoved v => return (.flag (← r.removed.get v), r)
  | .isEmpty => return (.flag r.order.isEmpty, r)
  | .size => return (.number r.order.length, r)
  | .head => return (.vertex r.order.head?, r)

-- Carries out a history and gives the last state.
def performAll (r : RankedList) (history : List Operation) : Except Fault RankedList :=
  history.foldlM (fun r operation => do return (← r.perform operation).2) r

end RankedList

end LocalityOrder
