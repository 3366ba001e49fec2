import LambdaScript.Machine
import Std.Data.TreeMap
/-!
# A directory of files

A `Directory` holds files by name. Programs name files by paths, and a path need not lead to a file
in the directory: it may lead to the directory itself, through a file as if that were a directory,
or elsewhere. `Directory.resolve` says where a path leads; `Directory.read` and `Directory.write`
follow it. What lies outside of the directory is not known here: it cannot be read, and writing
there changes nothing.
-/

namespace LambdaScript

/-- Why a file cannot be read. -/
inductive ReadFailure where
  | notFound
  | notPermitted
  /-- The contents are no text. -/
  | notText
  /-- It is a directory. -/
  | directory
  /-- The path leads through a file as if that were a directory. -/
  | throughFile
  /-- The path, or a name in it, is too long. -/
  | tooLong
  /-- Any other reason, in words. -/
  | other (reason : String)
deriving DecidableEq

namespace ReadFailure

/-- The text of a failure to read the file at `path`. -/
def message (path : String) : ReadFailure → String
  | notFound => "cannot find file '" ++ path ++ "'"
  | notPermitted => "permission denied reading '" ++ path ++ "'"
  | notText => "'" ++ path ++ "' contains invalid UTF-8 data"
  | directory => "error reading '" ++ path ++ "': Is a directory (os error 21)"
  | throughFile => "error reading '" ++ path ++ "': Not a directory (os error 20)"
  | tooLong => "error reading '" ++ path ++ "': File name too long (os error 36)"
  | other reason => "error reading '" ++ path ++ "': " ++ reason

end ReadFailure

/-- Files by name. -/
structure Directory where
  files : Std.TreeMap String ByteArray

namespace Directory

/-- Where a path leads. -/
inductive Target where
  /-- A name in the directory, whether or not there is a file. -/
  | name (name : String)
  /-- A directory: this one or one around it. -/
  | directory
  /-- Through a file as if it were a directory. -/
  | throughFile
  /-- A path that is too long, or through a name that is too long for any file. -/
  | tooLong
  /-- Nowhere, or out of the directory. -/
  | nowhere
deriving DecidableEq

/-- The largest number of bytes in a file name. -/
def maxNameBytes : Nat := 255

/-- The largest number of bytes in a path. -/
def maxPathBytes : Nat := 4095

/-- Where the parts of a path lead, taken one after the other from the directory, if `inside`, and
otherwise from one outside of it. An empty part and `.` lead nowhere else, and `..` leads to the
directory around. No name inside can be passed through, since only files are there. -/
def follow (dir : Directory) (inside : Bool) : List String → Target
  | [] => .directory
  | part :: rest =>
    if part = "" ∨ part = "." then follow dir inside rest
    else if part = ".." then follow dir false rest
    else if maxNameBytes < part.utf8ByteSize then .tooLong
    else if !inside then .nowhere
    else if rest.isEmpty then .name part
    else if dir.files.contains part then .throughFile
    else .nowhere

/-- Where a path leads. Its parts lie between slashes, and a slash in front leads out of the
directory. -/
def resolve (dir : Directory) (path : String) : Target :=
  if path.isEmpty || path.contains '\x00' then .nowhere
  else if maxPathBytes < path.utf8ByteSize then .tooLong
  else follow dir (!path.startsWith "/") (path.splitOn "/")

/-- The text of the file that a path leads to. -/
def read (dir : Directory) (path : String) : Except ReadFailure String :=
  match dir.resolve path with
  | .name name =>
    match dir.files[name]? with
    | none => .error .notFound
    | some contents =>
      match String.fromUTF8? contents with
      | some text => .ok text
      | none => .error .notText
  | .directory => .error .directory
  | .throughFile => .error .throughFile
  | .tooLong => .error .tooLong
  | .nowhere => .error .notFound

/-- Write a file, if the path leads to one. -/
def write (dir : Directory) (w : FileWrite) : Directory :=
  match dir.resolve w.path with
  | .name name => ⟨dir.files.insert name w.contents.toUTF8⟩
  | _ => dir

/-- Write files in order. -/
def writeAll (dir : Directory) (writes : Array FileWrite) : Directory := writes.foldl write dir

end Directory

end LambdaScript
