import PieChecker.Command

set_option autoImplicit false

/-!
# The command line

Reads the arguments and the file that they name, runs the command and writes what it leaves
behind.
-/

namespace PieChecker.Command

/-- The number by which the system names the reason of a failure, or zero. It may be given with
a minus sign. -/
def codeOf : IO.Error → Nat
  | .noFileOrDirectory _ code _ | .permissionDenied _ code _ | .inappropriateType _ code _
  | .invalidArgument _ code _ | .resourceExhausted _ code _ | .otherError code _ =>
    code.toInt32.toInt.natAbs
  | _ => 0

/-- Reads a file as text. -/
def readText (path : String) : IO (Except Unreadable String) := do
  try
    let bytes ← IO.FS.readBinFile path
    return (String.fromUTF8? bytes).elim (.error .notText) .ok
  catch e =>
    return .error ((Unreadable.ofCode? (codeOf e)).getD (.other (toString e)))

end PieChecker.Command

open PieChecker in
def main (arguments : List String) : IO UInt32 := do
  match Command.Options.ofArguments? arguments with
  | none => do
    IO.eprint Command.usage
    return 1
  | some options => do
    let contents ← match options.input with
      | .direct source => pure (.ok source)
      | .file path => Command.readText path
    let console := Command.run options contents
    IO.print console.stdout
    IO.eprint console.stderr
    return console.code.toUInt32
