import Treewalk.Number.Text
import Treewalk.Tree.Basic

/-!
Trees as text: every node is a parenthesis with its operator in front.
-/

namespace Treewalk

/-- A constant in a tree. -/
def Literal.text : Literal → String
  | .number value => Number.treeText value
  | .string text => text
  | .bool value => if value then "true" else "false"
  | .nil => "nil"

/-- A node: its words in parentheses. -/
def node (words : List String) : String :=
  "(" ++ String.intercalate " " words ++ ")"

mutual

/-- An expression as text. -/
def Expr.text : Expr → String
  | .literal value => value.text
  | .array _ items => "[" ++ String.intercalate ", " (items.map Literal.text) ++ "]"
  | .unary operator right => node [operator.lexeme, right.text]
  | .binary left operator right => node [operator.lexeme, left.text, right.text]
  | .logical left operator right => node [operator.lexeme, left.text, right.text]
  | .grouping inner => node ["group", inner.text]
  | .var _ name => name.lexeme
  | .global name => node ["global", name.lexeme]
  | .assign _ name value => node ["=", name.lexeme, value.text]
  | .ternary condition _ yes no => node ["?:", condition.text, yes.text, no.text]
  | .call callee _ arguments => node ("call" :: callee.text :: Expr.texts arguments)
  | .lambda routine => routine.text "lambda"
  | .get object name => node [".", object.text, name.lexeme]
  | .set object name value => node [".=", object.text, name.lexeme, value.text]
  | .this _ _ => "this"
  | .subscript _ name index => node ["index", name.lexeme, index.text]

/-- Expressions as texts. -/
def Expr.texts : List Expr → List String
  | [] => []
  | e :: rest => e.text :: Expr.texts rest

/-- A statement as text. -/
def Stmt.text : Stmt → String
  | .expression value => node [";", value.text]
  | .print _ values => node ("print" :: Expr.texts values)
  | .varDecl name none => node ["var", name.lexeme]
  | .varDecl name (some value) => node ["var", name.lexeme, value.text]
  | .block body => node ("block" :: Stmt.texts body)
  | .ifElse condition yes none => node ["if", condition.text, yes.text]
  | .ifElse condition yes (some no) => node ["if", condition.text, yes.text, no.text]
  | .whileLoop condition body => node ["while", condition.text, body.text]
  | .function routine => routine.text "fun"
  | .breakLoop _ => node ["break"]
  | .returnValue _ none => node ["return"]
  | .returnValue _ (some value) => node ["return", value.text]
  | .classDecl name none methods => node ("class" :: name.lexeme :: Routine.texts methods)
  | .classDecl name (some parent) methods =>
    node ("class" :: name.lexeme :: "<" :: parent.text :: Routine.texts methods)
  | .useLibrary _ path => node ["use", path.lexeme]

/-- Statements as texts. -/
def Stmt.texts : List Stmt → List String
  | [] => []
  | s :: rest => s.text :: Stmt.texts rest

/-- A routine as text, under the word for what it is. -/
def Routine.text (tag : String) : Routine → String
  | ⟨name, params, body⟩ =>
    node [tag, name.lexeme ++ node (params.map Token.lexeme), node ("block" :: Stmt.texts body)]

/-- Methods as texts. -/
def Routine.texts : List Routine → List String
  | [] => []
  | r :: rest => r.text "method" :: Routine.texts rest

end

end Treewalk
