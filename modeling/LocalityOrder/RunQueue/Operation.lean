import LocalityOrder.RunQueue.Extract

/-!
# Operations on a queue

The operations and questions of a queue as values, so that a history of a queue is a list, and
`perform`, which carries one out.
-/

namespace LocalityOrder

namespace RunQueue

/-- What can be asked of a queue. -/
inductive Operation where
  | raise (v : Vertex)
  | addPending (v : Vertex) (change : Score)
  | setPending (v : Vertex) (change : Score)
  | remove (v : Vertex)
  | assignKeys (keys : Table Int)
  | extractMax
  | key (v : Vertex)
  | pending (v : Vertex)
  | effectiveKey (v : Vertex)
  | isRemoved (v : Vertex)
  | isEmpty
  | size
  | head
deriving DecidableEq

/-- What an operation answers. -/
inductive Answer where
  | done
  | vertex (v : Option Vertex)
  | number (x : Int)
  | flag (b : Bool)
deriving DecidableEq

-- Carries out one operation.
def perform (q : RunQueue) : Operation → Except Fault (Answer × RunQueue)
  | .raise v => return (.done, ← q.raise v)
  | .addPending v change => return (.done, ← q.addPending v change)
  | .setPending v change => return (.done, ← q.setPending v change)
  | .remove v => return (.done, ← q.remove v)
  | .assignKeys keys => return (.done, ← q.assignKeys keys)
  | .extractMax => do
      let (v, q) ← q.extractMax
      return (.vertex (some v), q)
  | .key v => return (.number (← q.key v), q)
  | .pending v => return (.number (← q.pendingOf v), q)
  | .effectiveKey v => return (.number (← q.effectiveKey v), q)
  | .isRemoved v => return (.flag (← q.isRemoved v), q)
  | .isEmpty => return (.flag q.isEmpty, q)
  | .size => return (.number q.size, q)
  | .head => return (.vertex q.head, q)

-- Carries out a history and gives the last state.
def performAll (q : RunQueue) (history : List Operation) : Except Fault RunQueue :=
  history.foldlM (fun q operation => do return (← q.perform operation).2) q

end RunQueue

end LocalityOrder
