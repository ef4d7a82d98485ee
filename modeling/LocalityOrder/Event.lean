/-!
# Events

What a computation reports about itself while it runs.
-/

namespace LocalityOrder

/-- How important an event is. -/
inductive Level where
  | info
  | debug
  | trace
deriving DecidableEq, Repr

namespace Level

def name : Level → String
  | .info => "INFO"
  | .debug => "DEBUG"
  | .trace => "TRACE"

end Level

/-- One report. -/
structure Event where
  level : Level
  text : String
deriving DecidableEq, Repr

end LocalityOrder
