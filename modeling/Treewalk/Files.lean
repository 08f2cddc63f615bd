import Treewalk.Text.Quoted
import Treewalk.Text.Search

/-!
Files as a command sees them: a tree of folders in which paths are followed name by name, and the reasons why a path
leads to no text.
-/

namespace Treewalk

/-- Why a file cannot be read. -/
inductive FileFault where
  /-- A name of the path does not exist. -/
  | missing
  /-- The path goes on behind a file. -/
  | insideFile
  /-- The path, or a name in it, is too long. -/
  | nameTooLong
  /-- The file may not be read. -/
  | denied
  /-- The path leads to a folder. -/
  | folder
deriving DecidableEq, Repr

namespace FileFault

/-- What could not be done. A folder can be opened, but it has no content. -/
def action : FileFault → String
  | .folder => "Failed to map file "
  | _ => "Failed to open file "

/-- What stood in the way. -/
def cause : FileFault → String
  | .missing => "No such file or directory (os error 2)"
  | .insideFile => "Not a directory (os error 20)"
  | .nameTooLong => "File name too long (os error 36)"
  | .denied => "Permission denied (os error 13)"
  | .folder => "No such device (os error 19)"

end FileFault

/-- A tree of files. Each stands under the names that lead to it, and `home` is where a path without a leading slash
starts. -/
structure Files where
  contents : List (List String × List UInt8) := []
  home : List String := []

namespace Files

/-- The content of the file at a place. -/
def file? (f : Files) (place : List String) : Option (List UInt8) :=
  (f.contents.find? (·.1 == place)).map (·.2)

/-- A place is a folder if a file stands below it or the home does. -/
def isFolder (f : Files) (place : List String) : Bool :=
  place.isPrefixOf f.home || f.contents.any fun (p, _) => place.isPrefixOf p && place != p

/-- The most bytes that a name may have. -/
def nameLimit : Nat := 255

/-- The most bytes that a path may have. -/
def pathLimit : Nat := 4095

/-- Follows one name from a place. One dot, or no name between two slashes, stays there; two dots lead to the folder
around it. -/
def follow (f : Files) (place : List String) (name : String) : Except FileFault (List String) :=
  let next := place ++ [name]
  if !f.isFolder place then .error .insideFile
  else if name == "" || name == "." then .ok place
  else if name == ".." then .ok place.dropLast
  else if nameLimit < name.utf8ByteSize then .error .nameTooLong
  else if f.isFolder next || (f.file? next).isSome then .ok next
  else .error .missing

/-- The place to which a path leads. -/
def place (f : Files) (path : String) : Except FileFault (List String) :=
  if path.isEmpty then .error .missing
  else if pathLimit < path.utf8ByteSize then .error .nameTooLong
  else (Text.split path "/").foldlM f.follow (if path.toList.head? == some '/' then [] else f.home)

/-- The content of the file to which a path leads. -/
def read (f : Files) (path : String) : Except FileFault (List UInt8) := do
  let place ← f.place path
  match f.file? place with
  | some content => .ok content
  | none => .error .folder

end Files

end Treewalk
