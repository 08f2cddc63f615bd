import Treewalk.Diagnostic
import Treewalk.Grammar.Parse
import Treewalk.Token.Lexer

/-!
A source as a program: its statements as far as they can be read, and what is wrong with the rest.
-/

namespace Treewalk

/-- The report of a lexical error. -/
def LexError.diagnostic (e : LexError) : Diagnostic :=
  .lex e.line e.fault.message

/-- The report of an error in the grammar. -/
def ParseError.diagnostic (e : ParseError) : Diagnostic :=
  .parse (.ofToken e.token) e.fault.message

/-- A source that was read: its statements, what was reported, and the identity for the next node. -/
structure Program where
  statements : List Stmt
  reports : List Diagnostic
  nextId : NodeId

namespace Program

/-- Reads tokens. Nodes get identities from `nextId` on. -/
def ofTokens (nextId : NodeId) (tokens : List Token) : Program :=
  let reading := Grammar.parse nextId tokens
  ⟨reading.statements, reading.errors.map (·.diagnostic), reading.nextId⟩

/-- Reads a source. Its tokens are read as a program also if there are lexical errors, which are reported first. -/
def ofSource (nextId : NodeId) (source : List UInt8) : Program :=
  let items := Token.scan source
  let program := ofTokens nextId (Token.good items)
  { program with reports := (LexError.all items).map (·.diagnostic) ++ program.reports }

end Program

end Treewalk
