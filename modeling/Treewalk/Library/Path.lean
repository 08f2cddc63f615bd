import Treewalk.Text.Blank
import Treewalk.Text.Search

/-!
Paths of libraries: names joined by double colons, with braces around them that mean nothing.
-/

namespace Treewalk

/-- A path taken apart: the names of the library, and the name in it. -/
structure LibraryPath where
  segments : List String
  leaf : String
deriving DecidableEq, Repr

namespace LibraryPath

/-- A brace. -/
def isBrace (c : Char) : Bool :=
  c == '\x7b' || c == '\x7d'

/-- Takes a path apart. -/
def ofText (path : String) : LibraryPath :=
  let names := (Text.split path "::").map fun s => String.ofList (Text.strip isBrace s.toList)
  ⟨names.dropLast, names.getLast?.getD ""⟩

/-- The names of the library as one text. -/
def namespaceText (p : LibraryPath) : String :=
  String.intercalate "::" p.segments

end LibraryPath

end Treewalk
