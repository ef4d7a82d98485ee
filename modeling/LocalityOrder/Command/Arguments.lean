import LocalityOrder.Command.Request

/-!
# Arguments

The arguments of the command are one path and the options `-w` or `--window` with a number,
`--inverse`, `-h` or `--help` and `-V` or `--version`.  They are read from left to right: the first
one that is wrong decides, and so does a request for the version or for help that comes before it.
Of what is wrong only the status tells.

The number of a window may be a part of the same argument, `-w5`, `-w=5` or `--window=5`, or it is
the next argument, which must not look like an option.  After `--` there are only paths.
-/

namespace LocalityOrder.Command

-- What the command leaves behind when its arguments are wrong.
def misuse : Outcome := ⟨2, "", ""⟩

-- What the command leaves behind when it is asked for its version.
def version : Outcome := ⟨0, "graph-reorder 0.1.0\n", ""⟩

-- What the command leaves behind when it is asked for help, but for the text.
def help : Outcome := ⟨0, "", ""⟩

/-! ## One argument -/

/-- The form of an argument. -/
inductive Argument where
  -- `--`, after which there are no options.
  | endOfOptions
  -- `--name` or `--name=value`.
  | long (name : String) (value : Option String)
  -- `-c` with what follows the letter.
  | short (letter : Char) (rest : List Char)
  -- Anything else, `-` alone included.
  | plain (text : String)
deriving DecidableEq, Repr

-- The form of an argument.
def Argument.ofString (text : String) : Argument :=
  match text.toList with
  | ['-', '-'] => .endOfOptions
  | '-' :: '-' :: rest =>
      let name := String.ofList (rest.takeWhile (· != '='))
      match rest.dropWhile (· != '=') with
      | [] => .long name none
      | _ :: value => .long name (some (String.ofList value))
  | '-' :: letter :: rest => .short letter rest
  | _ => .plain text

-- The largest window that can be asked for.
def largestWindow : Nat := 18446744073709551615

-- The number that decimal digits stand for.
def digitsValue (digits : List Char) : Nat :=
  digits.foldl (fun value digit => value * 10 + (digit.toNat - '0'.toNat)) 0

-- Reads a number: digits, perhaps after a plus sign.
def readNumber (text : List Char) : Except Outcome Nat :=
  let digits := match text with
    | '+' :: rest => rest
    | _ => text
  if !digits.isEmpty && digits.all Char.isDigit && digitsValue digits ≤ largestWindow then
    .ok (digitsValue digits)
  else
    .error misuse

/-! ## All arguments -/

/-- What the arguments read so far ask for. -/
structure Draft where
  path : Option String := none
  window : Option Nat := none
  inverse : Bool := false
deriving DecidableEq, Repr

namespace Draft

def setPath (d : Draft) (text : String) : Except Outcome Draft :=
  if d.path.isSome || text.isEmpty then .error misuse else .ok { d with path := some text }

def setWindow (d : Draft) (text : List Char) : Except Outcome Draft :=
  if d.window.isSome then .error misuse
  else do return { d with window := some (← readNumber text) }

def setInverse (d : Draft) : Except Outcome Draft :=
  if d.inverse then .error misuse else .ok { d with inverse := true }

-- What is asked for when there are no arguments left.
def finish (d : Draft) : Except Outcome Request :=
  match d.path with
  | none => .error misuse
  | some path => .ok {
      path
      settings := ⟨d.window.getD Settings.standard.window⟩
      inverse := d.inverse }

-- Reads the arguments that are left.
def read (d : Draft) : List String → Except Outcome Request
  | [] => d.finish
  | argument :: rest =>
    match Argument.ofString argument with
    | .endOfOptions => do (← rest.foldlM setPath d).finish
    | .plain text => do read (← d.setPath text) rest
    | .long "window" (some number) => do read (← d.setWindow number.toList) rest
    | .short 'w' ('=' :: number) => do read (← d.setWindow number) rest
    | .short 'w' (first :: number) => do read (← d.setWindow (first :: number)) rest
    | .long "window" none | .short 'w' [] =>
        match rest with
        | [] => .error misuse
        | number :: rest =>
          match Argument.ofString number with
          | .plain text => do read (← d.setWindow text.toList) rest
          | _ => .error misuse
    | .long "inverse" none => do read (← d.setInverse) rest
    | .long "version" none | .short 'V' _ => .error version
    | .long "help" none | .short 'h' _ => .error help
    | .long _ _ | .short _ _ => .error misuse

end Draft

-- Reads all arguments.
def readArguments : Reader := Draft.read {}

end LocalityOrder.Command
