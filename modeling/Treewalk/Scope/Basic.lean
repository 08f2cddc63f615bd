import Std.Data.TreeMap
import Treewalk.Sorting
import Treewalk.Tree.Basic

/-!
Local scopes while a program is checked: the names that each declares, and the table of distances that comes out. The
distance of a reference is the number of scopes between it and the one that declares its name.
-/

namespace Treewalk

/-- For each node that refers to a local name, how many scopes away it is declared. -/
structure Distances where
  table : Std.TreeMap NodeId Nat := {}

namespace Distances

/-- The distance recorded for a node. -/
def find? (d : Distances) (id : NodeId) : Option Nat :=
  d.table[id]?

/-- Records a distance. -/
def record (d : Distances) (id : NodeId) (distance : Nat) : Distances :=
  ⟨d.table.insert id distance⟩

end Distances

/-- A name in a scope: the token that declares it, whether its value is there yet, and whether anything refers to
it. -/
structure LocalName where
  token : Token
  defined : Bool
  used : Bool
deriving DecidableEq, Repr

/-- The names that a scope declares, in their order. -/
abbrev Scope := List LocalName

namespace Scope

/-- The entry of a name. -/
def find? (scope : Scope) (name : String) : Option LocalName :=
  List.find? (·.token.lexeme == name) scope

/-- Changes the entry of a name. -/
def modify (scope : Scope) (name : String) (f : LocalName → LocalName) : Scope :=
  scope.map fun entry => if entry.token.lexeme == name then f entry else entry

/-- Adds a name that has no value yet. -/
def declare (scope : Scope) (token : Token) : Scope :=
  scope ++ [⟨token, false, false⟩]

/-- Notes that a name has its value. -/
def define (scope : Scope) (name : String) : Scope :=
  scope.modify name fun entry => { entry with defined := true }

/-- Notes that something refers to a name. -/
def use (scope : Scope) (name : String) : Scope :=
  scope.modify name fun entry => { entry with used := true }

/-- Nobody is told about an unused name that starts with an underscore. -/
def isDiscard (name : String) : Bool :=
  name.toList.head? == some '_'

/-- Tokens in the order of the source. -/
def before (a b : Token) : Bool :=
  a.line < b.line || (a.line == b.line && a.offset ≤ b.offset)

/-- The tokens of the names that nothing refers to, in the order of the source. -/
def unused (scope : Scope) : List Token :=
  sortBy before ((scope.filter fun entry => !entry.used && !isDiscard entry.token.lexeme).map (·.token))

end Scope

end Treewalk
