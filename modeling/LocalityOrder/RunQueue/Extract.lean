import LocalityOrder.RunQueue.Basic

/-!
# Taking the best element

The element at the head of a queue may have a pending decrease.  Before it is taken, half of the
decrease, rounded up, is folded into its key.  If the key is then below that of the next element,
the head sinks to the end of the run of its new key, and the new head is looked at in turn.  The
rest of the decrease stays pending, so one element may sink more than once.

Each sinking lowers one key, and no key is above that of the first head, so at most
`size * key(head)` elements sink before one is taken.
-/

namespace LocalityOrder

namespace RunQueue

/-- The key and the pending change after a fold: the key falls by half of the pending decrease,
rounded up, but not below zero. -/
def fold (key : Nat) (pending : Score) : Except Fault (Nat × Score) := do
  let exact ← Score.add key pending
  let folded ← Score.sub exact (pending.tdiv 2)
  let key := folded.toNat
  return (key, ← Score.sub exact key)

/-- From the end of the run of `key` on, the last element whose key is at least `bound`, and the
element after it.  Keys descend from run to run, so no more than `key` runs follow. -/
def lastAtLeast (q : RunQueue) (bound : Nat) :
    (fuel : Nat) → (key : Nat) → Except Fault (Vertex × Option Vertex)
  | 0, _ => .error .unsettled
  | fuel + 1, key => do
      let run ← q.runs.run key
      let link ← q.chain.link run.last
      match link.after with
      | none => return (run.last, none)
      | some next =>
        let nextKey ← q.keys.get next
        if bound ≤ nextKey then q.lastAtLeast bound fuel nextKey
        else return (run.last, some next)

-- Moves the head `v`, with the given key and neighbors, to the end of the run of a lower key.
def sink (q : RunQueue) (v : Vertex) (key : Nat) (link : Link) (lower : Nat) (left : Score) :
    Except Fault RunQueue := do
  let (last, after) ← q.lastAtLeast lower (key + 1) key
  let { chain, head := _, keys, pending, runs, size } := q
  let chain ← chain.unlink v
  let chain ← chain.insertBetween v (some last) after
  let keys ← keys.put v lower
  let pending ← pending.put v left
  let runs ← runs.leave key v link
  let runs ← runs.append lower v
  return { chain, head := link.after, keys, pending, runs, size }

/-- Folds the pending decrease of the head and sinks it, if it then no longer comes first.  Tells
whether the head sank. -/
def sinkHead (q : RunQueue) : Except Fault (Bool × RunQueue) := do
  let v ← Chain.expect q.head
  let pending ← q.pending.get v
  if 0 ≤ pending then
    return (false, q)
  let link ← q.chain.link v
  match link.after with
  | none => return (false, q)
  | some next =>
    let key ← q.keys.get v
    let (lower, left) ← fold key pending
    if (← q.keys.get next) ≤ lower then
      return (false, q)
    return (true, ← q.sink v key link lower left)

-- Sinks heads until one stays.
def settle : (fuel : Nat) → RunQueue → Except Fault RunQueue
  | 0, _ => .error .unsettled
  | fuel + 1, q => do
      match ← q.sinkHead with
      | (false, q) => return q
      | (true, q) => settle fuel q

-- Removes the best element and returns it.
def extractMax (q : RunQueue) : Except Fault (Vertex × RunQueue) := do
  match q.head with
  | none => throw .emptyQueue
  | some first =>
    let largest ← q.keys.get first
    let q ← settle (q.size * largest + 1) q
    let v ← Chain.expect q.head
    return (v, ← q.remove v)

end RunQueue

end LocalityOrder
