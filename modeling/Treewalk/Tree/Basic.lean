import Treewalk.Token.Basic

/-!
Syntax trees. Names, operators and other points that a message may refer to are kept as tokens. Nodes that refer to a
binding carry an identity of their own, under which the distance to that binding is recorded.
-/

namespace Treewalk

/-- The identity of a node that refers to a binding. -/
abbrev NodeId := Nat

/-- A constant in a program. -/
inductive Literal where
  | number (value : Float)
  | string (text : String)
  | bool (value : Bool)
  | nil
deriving DecidableEq, Repr

mutual

/-- Expressions. -/
inductive Expr where
  | literal (value : Literal)
  /-- An array of constants, with the bracket that opens it. -/
  | array (bracket : Token) (items : List Literal)
  | unary (operator : Token) (right : Expr)
  | binary (left : Expr) (operator : Token) (right : Expr)
  /-- `and` and `or`, which evaluate their right side only if they need it. -/
  | logical (left : Expr) (operator : Token) (right : Expr)
  | grouping (inner : Expr)
  | var (id : NodeId) (name : Token)
  /-- A name that is read in the outermost frame only. -/
  | global (name : Token)
  | assign (id : NodeId) (name : Token) (value : Expr)
  | ternary (condition : Expr) (question : Token) (yes no : Expr)
  /-- A call, with the parenthesis that closes it. -/
  | call (callee : Expr) (paren : Token) (arguments : List Expr)
  | lambda (routine : Routine)
  | get (object : Expr) (name : Token)
  | set (object : Expr) (name : Token) (value : Expr)
  | this (id : NodeId) (keyword : Token)
  | subscript (id : NodeId) (name : Token) (index : Expr)

/-- Statements. -/
inductive Stmt where
  | expression (value : Expr)
  | print (keyword : Token) (values : List Expr)
  | varDecl (name : Token) (initializer : Option Expr)
  | block (body : List Stmt)
  | ifElse (condition : Expr) (yes : Stmt) (no : Option Stmt)
  | whileLoop (condition : Expr) (body : Stmt)
  | function (routine : Routine)
  | breakLoop (keyword : Token)
  | returnValue (keyword : Token) (value : Option Expr)
  /-- A class; the grammar has only a variable as superclass. -/
  | classDecl (name : Token) (superclass : Option Expr) (methods : List Routine)
  | useLibrary (keyword path : Token)

/-- A function, a method or an anonymous function: name, parameters and body. -/
structure Routine where
  name : Token
  params : List Token
  body : List Stmt

end

/-- The line to report for an expression, if it holds a token. -/
def Expr.line? : Expr → Option Nat
  | .literal _ => none
  | .array bracket _ => some bracket.line
  | .unary operator _ => some operator.line
  | .binary _ operator _ => some operator.line
  | .logical _ operator _ => some operator.line
  | .grouping inner => inner.line?
  | .var _ name => some name.line
  | .global name => some name.line
  | .assign _ name _ => some name.line
  | .ternary _ question _ _ => some question.line
  | .call _ paren _ => some paren.line
  | .lambda routine => some routine.name.line
  | .get _ name => some name.line
  | .set _ name _ => some name.line
  | .this _ keyword => some keyword.line
  | .subscript _ name _ => some name.line

/-- The expressions that a statement holds directly. -/
def Stmt.expressions : Stmt → List Expr
  | .expression value => [value]
  | .print _ values => values
  | .varDecl _ initializer => initializer.toList
  | .ifElse condition _ _ => [condition]
  | .whileLoop condition _ => [condition]
  | .returnValue _ value => value.toList
  | .classDecl _ superclass _ => superclass.toList
  | _ => []

end Treewalk
