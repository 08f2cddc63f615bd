import Treewalk.Grammar.Declaration
import Treewalk.Grammar.Expression

/-!
From tokens to trees. Each production is written in terms of those of the phrases it contains; `produce` ties them
together, with a bound on their nesting, and `parse` reads a whole program.
-/

namespace Treewalk.Grammar

/-- The productions of all phrases, in terms of those of the phrases within. -/
def rulesOver (rules : Rules) : Rules
  | .program => program rules
  | .body => body rules
  | .declaration => declaration rules
  | .statement => statement rules
  | .methods => methods rules
  | .parameters count => parameters rules count
  | .expression => expression rules
  | .furtherValues => furtherValues rules
  | .assignment => assignment rules
  | .operand level => operand rules level
  | .operators level left => operators rules level left
  | .unary => unary rules
  | .suffixes inner => suffixes rules inner
  | .arguments count => arguments rules count
  | .items => items rules

/-- The productions, with a bound on their nesting. -/
def produce : Nat → Rules
  | 0 => fun _ => Production.exhausted
  | depth + 1 => rulesOver (produce depth)

/-- A nesting that no list of the given number of tokens exceeds: between two tokens at most sixteen productions
begin. -/
def nestingBound (tokens : Nat) : Nat :=
  16 * tokens + 16

/-- The position before the first of the tokens. What stands behind the first end is not read. -/
def Cursor.start (nextId : NodeId) (tokens : List Token) : Cursor :=
  let finish := (tokens.find? Token.isFinish).getD .missing
  ⟨tokens.takeWhile (!·.isFinish), finish, finish, nextId, []⟩

/-- What a list of tokens is read as: the statements without those that were given up, the errors, and the identity
for the next node. -/
structure Reading where
  statements : List Stmt
  errors : List ParseError
  nextId : NodeId

/-- Reads a list of tokens as a program. Nodes get identities from `nextId` on. -/
def parse (nextId : NodeId) (tokens : List Token) : Reading :=
  let start := Cursor.start nextId tokens
  match produce (nestingBound start.ahead.length) .program start with
  | .ok statements last => ⟨statements, last.errors, last.nextId⟩
  | .failed e last => ⟨[], last.errors ++ [e], last.nextId⟩
  | .exhausted => ⟨[], [], nextId⟩

end Treewalk.Grammar
