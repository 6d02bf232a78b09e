import Stylesheet.Command

/-!
# The program

Runs the command line: reads the files that it names, and prints or writes the result.
-/

namespace Stylesheet

/-- The text of a file, if it can be read. -/
def readFile (path : String) : IO (Option String) := do
  try return some (← IO.FS.readFile path) catch _ => return none

/-- Write a file, and say whether that worked. -/
def writeFile (path text : String) : IO Bool := do
  try
    IO.FS.writeFile path text
    return true
  catch _ => return false

/-- How the program is called. -/
def usage : String :=
  "Usage: build INPUT [-o FILE] [--config FILE] [--compress] [--strict-imports] " ++
    "[--max-mixin-depth N]"

/-- Report a failure. -/
def reportFailure (line : String) (cause : Option String) : IO UInt32 := do
  IO.eprintln s!"Error: {line}"
  match cause with
  | none => pure ()
  | some cause => IO.eprintln s!"\nCaused by:\n    {cause}"
  return 1

end Stylesheet

open Stylesheet in
/-- Run the program with its arguments. -/
def main (args : List String) : IO UInt32 := do
  match ← Command.run readFile args with
  | .usage =>
    IO.eprintln usage
    return 2
  | .failed line cause => reportFailure line cause
  | .print css =>
    IO.println css
    return 0
  | .write path css =>
    if ← writeFile path css then return 0 else reportFailure (Command.writeFailure path) none
