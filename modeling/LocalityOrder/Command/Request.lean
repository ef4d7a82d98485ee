import LocalityOrder.Settings

/-!
# Requests

What the command is asked for and what it leaves behind.  How the arguments are read is not settled
here: a reader either makes a request of them or ends the command at once, be it for an argument
that is wrong or because only the version was asked for.
-/

namespace LocalityOrder.Command

/-- What is to be done with a graph. -/
structure Request where
  -- The file that holds the graph.
  path : String
  settings : Settings
  -- Whether to print the place of each vertex instead of the vertices in their new order.
  inverse : Bool
deriving DecidableEq, Repr

/-- What the command leaves behind. -/
structure Outcome where
  status : Nat
  stdout : String
  stderr : String
deriving DecidableEq, Repr

/-- A way of reading arguments. -/
abbrev Reader : Type := (arguments : List String) → Except Outcome Request

end LocalityOrder.Command
