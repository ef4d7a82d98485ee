import LocalityOrder.Command.Outcome

/-!
# The command

Reads the arguments, looks at the file that they name, and prints what there is to say.
-/

namespace LocalityOrder.Command

/-- What a path leads to. -/
def readSource (path : String) : IO Source := do
  try
    return .content (← IO.FS.readBinFile path)
  catch
    | .noFileOrDirectory .. => return .unreadable .missing
    | .inappropriateType .. => return .unreadable .directory
    | error => return .unreadable (.other (toString error))

/-- Prints what the command leaves behind and gives its status. -/
def Outcome.print (outcome : Outcome) : IO UInt32 := do
  (← IO.getStdout).putStr outcome.stdout
  (← IO.getStderr).putStr outcome.stderr
  return outcome.status.toUInt32

/-- Does what the arguments ask for. -/
def run (arguments : List String) : IO UInt32 := do
  match readArguments arguments with
  | .ok request => (request.outcome (← readSource request.path)).print
  | .error outcome => outcome.print

end LocalityOrder.Command

def main (arguments : List String) : IO UInt32 := LocalityOrder.Command.run arguments
