import PieChecker.Files
import PieChecker.Report

set_option autoImplicit false

/-!
# The command

The command checks one program, given as an argument or in a file. Outputs go to the standard
output unless they are not wanted; reports of unfinished parts and of the first error go to the
standard error.
-/

namespace PieChecker.Command

/-- Where the program comes from. -/
inductive Input where
  | direct (source : String)
  | file (path : String)
  deriving DecidableEq, Repr

/-- The options of the command. -/
structure Options where
  input : Input
  quiet : Bool
  deriving DecidableEq, Repr

/-- Reads arguments after those that gave an input and a wish for silence. -/
def Options.ofArgumentsAfter? : List String → Option Input → Bool → Option Options
  | [], input, quiet => input.map (⟨·, quiet⟩)
  | "-c" :: source :: rest, none, quiet => ofArgumentsAfter? rest (some (.direct source)) quiet
  | "-f" :: path :: rest, none, quiet => ofArgumentsAfter? rest (some (.file path)) quiet
  | "-q" :: rest, input, false => ofArgumentsAfter? rest input true
  | "--quiet" :: rest, input, false => ofArgumentsAfter? rest input true
  | _, _, _ => none

/-- Reads arguments in any order: `-c SOURCE` or `-f PATH` once, and `-q` or `--quiet` at most
once. -/
def Options.ofArguments? (arguments : List String) : Option Options :=
  ofArgumentsAfter? arguments none false

/-- What the arguments may be. -/
def usage : String := "usage: (-c SOURCE | -f PATH) [-q | --quiet]\n"

/-- What the command leaves behind. -/
structure Console where
  code : Nat
  stdout : String
  stderr : String
  deriving DecidableEq, Repr

namespace Console

/-- Nothing written, and success. -/
def silent : Console := ⟨0, "", ""⟩

/-- A failure that is reported. -/
def failure (report : String) : Console := ⟨1, "", report⟩

/-- A computation that broke. -/
def aborted : Console := ⟨101, "", "internal error\n"⟩

/-- Writes one console after another. The code is that of the second. -/
def andThen (first second : Console) : Console :=
  ⟨second.code, first.stdout ++ second.stdout, first.stderr ++ second.stderr⟩

/-- A failure with the report that an outcome holds. -/
def ofReport : Outcome String → Console
  | .ok report => failure report
  | .error _ => aborted

end Console

/-- The console of an accepted form. -/
def showProcessed (source : String) (quiet : Bool) (p : Processed) : Outcome Console := do
  let reports ← p.holes.mapM (·.report source)
  return ⟨0, if quiet then "" else p.output.render ++ "\n", String.join reports⟩

/-- The console of the accepted forms of a program, up to the first one that cannot be shown,
and then of its end. -/
def showAll (source : String) (quiet : Bool) (ending : Console) : List Processed → Console
  | [] => ending
  | p :: ps =>
    match showProcessed source quiet p with
    | .ok console => console.andThen (showAll source quiet ending ps)
    | .error _ => .aborted

/-- Checks a program. -/
def check (source : String) (quiet : Bool) : Console :=
  match Context.empty.runProgram .standard source with
  | .error e => .ofReport (e.report source)
  | .ok transcript =>
    let ending := match transcript.interrupt with
      | none => .silent
      | some (.rejected e) => .ofReport (e.report source)
      | some (.stopped _) => .aborted
    showAll source quiet ending transcript.processed

/-- Runs the command on a program that was read, or on a file that was not. -/
def run (options : Options) (contents : Except Unreadable String) : Console :=
  match options.input, contents with
  | .direct source, _ => check source options.quiet
  | .file _, .ok source => check source options.quiet
  | .file path, .error reason =>
    .failure ("error: cannot read " ++ path ++ ": " ++ reason.message ++ "\n")

/-- Runs the command where the given files can be seen. -/
def runOn (options : Options) (files : Files) : Console :=
  run options <| match options.input with
    | .direct source => .ok source
    | .file path => files.read path

end PieChecker.Command
