import NiosBoard.Text.Blank

/-! # Files

A tree of text files, and what reading a path in it gives: the text, or the reason why there is
none. A path is followed part by part from the root or from the working directory; the first part
that cannot be followed decides the answer.
-/

namespace NiosBoard

inductive FileError where
  | notFound
  | permissionDenied
  /-- A file in a place where only a directory can be followed. -/
  | notDirectory
  | isDirectory
  | nameTooLong
  /-- A path with a NUL in it. -/
  | nulInName
  /-- Bytes that are no UTF-8. -/
  | notText
  | other (reason : String)
  deriving DecidableEq, Repr

namespace FileError

/-- The system's number, name and wording of a reason that comes from it. -/
def system? : FileError → Option (Nat × String × String)
  | .notFound => some (2, "NotFound", "No such file or directory")
  | .permissionDenied => some (13, "PermissionDenied", "Permission denied")
  | .notDirectory => some (20, "NotADirectory", "Not a directory")
  | .isDirectory => some (21, "IsADirectory", "Is a directory")
  | .nameTooLong => some (36, "InvalidFilename", "File name too long")
  | .nulInName | .notText | .other _ => none

def message (e : FileError) : String :=
  match e.system?, e with
  | some (number, _, wording), _ => wording ++ " (os error " ++ number.repr ++ ")"
  | none, .nulInName => "file name contained an unexpected NUL byte"
  | none, .other reason => reason
  | none, _ => "stream did not contain valid UTF-8"

end FileError

/-- Text files by the names that lead to them from the root. Every name on the way to a file is a
directory. -/
structure FileTree where
  files : List (List Text × Text)
  /-- Directories that are there even if they hold no file. -/
  directories : List (List Text)
  /-- Where relative paths start. -/
  workingDirectory : List Text
  deriving Repr

namespace FileTree

/-- The longest name and the longest path, in bytes. -/
def maxName : Nat := 255

def maxPath : Nat := 4095

def byteLength (t : Text) : Nat := (String.ofList t).utf8ByteSize

def parts : Text → List Text
  | [] => [[]]
  | '/' :: rest => [] :: parts rest
  | c :: rest =>
    match parts rest with
    | [] => [[c]]
    | part :: more => (c :: part) :: more

def isDirectory (d : FileTree) (place : List Text) : Bool :=
  (d.workingDirectory :: d.directories).any (place.isPrefixOf ·) ||
    d.files.any fun f => place.isPrefixOf f.1.dropLast

/-- Follows the parts of a path. An empty part and a single dot stay where they are and two dots
go up, but all of them need a directory to stand in. -/
def follow (d : FileTree) : List Text → List Text → Except FileError (List Text)
  | place, [] => .ok place
  | place, part :: rest =>
    if !d.isDirectory place then .error .notDirectory
    else if part = [] || part = ['.'] then d.follow place rest
    else if part = ['.', '.'] then d.follow place.dropLast rest
    else if maxName < byteLength part then .error .nameTooLong
    else
      let next := place ++ [part]
      if d.isDirectory next || (d.files.lookup next).isSome then d.follow next rest
      else .error .notFound

def read (d : FileTree) (path : Text) : Except FileError Text :=
  if path.contains '\x00' then .error .nulInName
  else if path = [] then .error .notFound
  else if maxPath < byteLength path then .error .nameTooLong
  else do
    let start := if path.head? = some '/' then [] else d.workingDirectory
    match d.files.lookup (← d.follow start (parts path)) with
    | some t => return t
    | none => throw .isDirectory

end FileTree

end NiosBoard
