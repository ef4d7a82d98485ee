import LocalityOrder.Error

/-!
# Settings

What a layout can be told: how many of the vertices placed last influence the choice of the next.
-/

namespace LocalityOrder

/-- How a layout is made. -/
structure Settings where
  -- How many of the vertices placed last influence the next choice.
  window : Nat := 16
deriving DecidableEq, Repr

namespace Settings

/-- The window holds 16 vertices unless something else is asked for. -/
def standard : Settings := {}

/-- Refuses an empty window. -/
def validate (settings : Settings) : Except Rejection Unit :=
  if settings.window = 0 then .error .invalidWindow else .ok ()

end Settings

end LocalityOrder
