import Treewalk.Library.Path
import Treewalk.Value.Basic

/-!
The libraries of native functions, and the names that every program finds at its start.
-/

namespace Treewalk

/-- A library: the path under which it is found, and its functions. -/
structure Library where
  path : String
  functions : List Native

namespace Library

/-- The function that tells the time, which belongs to no library. -/
def clock : Native := ⟨"clock", .exactly 0, .clock⟩

/-- Functions on numbers. -/
def math : Library :=
  ⟨"std::math", [⟨"max", .any, .max⟩, ⟨"min", .any, .min⟩]⟩

/-- Functions on texts. -/
def strings : Library :=
  ⟨"std::str",
    [⟨"len", .exactly 1, .len⟩, ⟨"substr", .exactly 3, .substr⟩, ⟨"concat", .exactly 2, .concat⟩,
     ⟨"split", .exactly 2, .split⟩, ⟨"replace", .exactly 3, .replace⟩]⟩

/-- Functions on the input. -/
def console : Library :=
  ⟨"std::io", [⟨"cin", .exactly 0, .readWord⟩]⟩

/-- All libraries. -/
def all : List Library := [math, strings, console]

/-- The function of a library under a name. -/
def lookup? (path name : String) : Option Native :=
  (all.find? (·.path == path)).bind fun l => l.functions.find? (·.name == name)

/-- The functions that are global from the start. -/
def preloaded : List Native :=
  clock :: all.flatMap (·.functions)

end Library

end Treewalk
