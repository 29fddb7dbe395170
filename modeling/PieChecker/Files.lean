set_option autoImplicit false

/-!
# Files

The files that a command can see, as a tree, and what comes of reading the file that a path
names. A path is followed one name at a time, and the first step that cannot be made says why
the file is not read.
-/

namespace PieChecker

/-- Why a file was not read. -/
inductive Unreadable where
  | missing
  | denied
  | notDirectory
  | isDirectory
  | nameTooLong
  | notText
  | other (reason : String)
  deriving DecidableEq, Repr

namespace Unreadable

/-- The wording of why a file was not read. -/
def message : Unreadable → String
  | missing => "No such file or directory (os error 2)"
  | denied => "Permission denied (os error 13)"
  | notDirectory => "Not a directory (os error 20)"
  | isDirectory => "Is a directory (os error 21)"
  | nameTooLong => "File name too long (os error 36)"
  | notText => "stream did not contain valid UTF-8"
  | other reason => reason

/-- The reason that the system gives by a number. -/
def ofCode? : Nat → Option Unreadable
  | 2 => some missing
  | 13 => some denied
  | 20 => some notDirectory
  | 21 => some isDirectory
  | 36 => some nameTooLong
  | _ => none

end Unreadable

/-- A file, or a directory of named trees. -/
inductive FileTree where
  | file (contents : String)
  | directory (entries : List (String × FileTree))

namespace FileTree

/-- The most bytes that a name may have. -/
def maxNameSize : Nat := 255

/-- Follows names from a tree below the given directories, the nearest first. Nothing is above
the topmost one. -/
def follow : (above : List FileTree) → FileTree → List String → Except Unreadable FileTree
  | _, tree, [] => .ok tree
  | _, file _, _ :: _ => .error .notDirectory
  | above, directory entries, name :: names =>
    if name = "" ∨ name = "." then follow above (directory entries) names
    else if name = ".." then
      match above with
      | [] => follow [] (directory entries) names
      | parent :: above => follow above parent names
    else if name.utf8ByteSize > maxNameSize then .error .nameTooLong
    else match entries.lookup name with
      | none => .error .missing
      | some tree => follow (directory entries :: above) tree names

end FileTree

/-- A tree of files, and the names that lead from its root to the directory from which other
paths start. -/
structure Files where
  root : FileTree
  start : List String

namespace Files

/-- A path must have fewer bytes than this. -/
def pathLimit : Nat := 4096

/-- The text of the file that a path names. -/
def read (files : Files) (path : String) : Except Unreadable String := do
  if path = "" then throw .missing
  if path.utf8ByteSize ≥ pathLimit then throw .nameTooLong
  let names := path.splitOn "/"
  let names := if path.startsWith "/" then names else files.start ++ names
  match ← FileTree.follow [] files.root names with
  | .file contents => return contents
  | .directory _ => throw .isDirectory

end Files

end PieChecker
