import Treewalk.Grammar.Cursor

/-!
The phrases of the grammar and the trees they are read as.
-/

namespace Treewalk.Grammar

/-- The levels of the operators with two operands, from the one that binds least. -/
inductive Level where
  | or
  | and
  | equality
  | comparison
  | sum
  | product
deriving DecidableEq, Repr

namespace Level

/-- The operators of a level. -/
def operators : Level → List Symbol
  | or => [.kwOr]
  | and => [.kwAnd]
  | equality => [.bangEqual, .equalEqual]
  | comparison => [.greater, .greaterEqual, .less, .lessEqual]
  | sum => [.minus, .plus]
  | product => [.star, .slash]

/-- The level that binds one step tighter. -/
def tighter? : Level → Option Level
  | or => some and
  | and => some equality
  | equality => some comparison
  | comparison => some sum
  | sum => some product
  | product => none

/-- The tree of an operator of the level with its operands. -/
def combine : Level → Expr → Token → Expr → Expr
  | or => .logical
  | and => .logical
  | _ => .binary

end Level

/-- The phrases that contain one another. Those with an argument continue what has been read. -/
inductive Phrase where
  /-- Declarations up to the end. -/
  | program
  /-- Declarations up to a closing brace. -/
  | body
  /-- A declaration, or nothing if it was given up. -/
  | declaration
  | statement
  /-- Methods up to a closing brace. -/
  | methods
  /-- Parameters behind the given number of them. -/
  | parameters (count : Nat)
  | expression
  /-- Expressions, each behind a comma. -/
  | furtherValues
  | assignment
  | operand (level : Level)
  /-- Operators of a level with their right operands, behind the left operand. -/
  | operators (level : Level) (left : Expr)
  | unary
  /-- Calls and properties behind an expression. -/
  | suffixes (inner : Expr)
  /-- Arguments behind the given number of them. -/
  | arguments (count : Nat)
  /-- Items of an array. -/
  | items

/-- The tree of a phrase. -/
def Phrase.Tree : Phrase → Type
  | program => List Stmt
  | body => List Stmt
  | declaration => Option Stmt
  | statement => Stmt
  | methods => List Routine
  | parameters _ => List Token
  | expression => Expr
  | furtherValues => List Expr
  | assignment => Expr
  | operand _ => Expr
  | operators _ _ => Expr
  | unary => Expr
  | suffixes _ => Expr
  | arguments _ => List Expr
  | items => List Literal

/-- A production for each phrase. -/
abbrev Rules : Type :=
  (phrase : Phrase) → Production phrase.Tree

/-- The largest number of parameters, and of arguments. -/
def arityLimit : Nat := 255

end Treewalk.Grammar
