import LocalityOrder.Command.Arguments
import LocalityOrder.LabeledGraph
import LocalityOrder.Layout

/-!
# Outcomes

What the command prints and the status with which it ends.  A request prints either the labels in
their new order, one on a line, or each label with its new place, in the order in which the labels
are first seen in the text.  If anything goes wrong, nothing is printed but the reason.
-/

namespace LocalityOrder.Command

-- Lines as a text.
def unlines (lines : List String) : String := String.join (lines.map fun line => line ++ "\n")

-- The labels in their new order.
def orderLines (l : LabeledGraph) (p : Renumbering) : List String :=
  p.newToOld.toList.filterMap fun old => l.labels.names[old]?

-- Each label with its new place.
def placeLines (l : LabeledGraph) (p : Renumbering) : Except Fault (List String) :=
  l.labels.names.toList.zipIdx.mapM fun (label, old) => do
    let place ← p.newOf old
    return label ++ " " ++ Nat.repr place

namespace Request

/-- The text that answers a request for the graph of a source.  The source is read before the
settings are looked at. -/
def answer (request : Request) (source : Source) : Except Error String := do
  let l ← LabeledGraph.ofSource source
  let p ← l.graph.localityOrder request.settings
  if request.inverse then
    return unlines (← (placeLines l p).mapError .fault)
  else
    return unlines (orderLines l p)

-- What the command leaves behind after a request.
def outcome (request : Request) (source : Source) : Outcome :=
  match request.answer source with
  | .ok text => ⟨0, text, ""⟩
  | .error (.rejected cause) => ⟨1, "", "error: " ++ cause.message ++ "\n"⟩
  | .error (.fault cause) => ⟨101, "", "error: " ++ cause.message ++ "\n"⟩

end Request

/-- What the command leaves behind, given how its arguments are read and what each path leads to. -/
def outcomeOf (read : Reader) (sourceOf : String → Source) (arguments : List String) : Outcome :=
  match read arguments with
  | .ok request => request.outcome (sourceOf request.path)
  | .error outcome => outcome

-- What the command leaves behind, given what each path leads to.
def outcome : (sourceOf : String → Source) → (arguments : List String) → Outcome :=
  outcomeOf readArguments

end LocalityOrder.Command
