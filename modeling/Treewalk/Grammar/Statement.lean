import Treewalk.Grammar.Routine

/-!
Productions of statements. A loop with three clauses has no tree of its own: it is written out with a loop that has a
condition only.
-/

namespace Treewalk.Grammar

open Production

variable (rules : Rules)

/-- A variable behind its keyword. -/
def varDeclaration : Production Stmt := do
  let name ← expectName .variableName
  let initializer : Option Expr ←
    match ← accept .equal with
    | some _ => do
      let value : Expr ← rules .expression
      pure (some value)
    | none => pure none
  discard <| expect .semicolon .variableEnd
  return .varDecl name initializer

/-- An expression that stands as a statement. -/
def expressionStatement : Production Stmt := do
  let value : Expr ← rules .expression
  discard <| expect .semicolon .expressionEnd
  return .expression value

/-- What a loop with three clauses stands for: the increment follows the body in a block, and the initializer precedes
the loop in one. -/
def loopTree (initializer : Option Stmt) (condition : Expr) (increment : Option Expr) (body : Stmt) : Stmt :=
  let round :=
    match increment with
    | some e => .block [body, .expression e]
    | none => body
  match initializer with
  | some s => .block [s, .whileLoop condition round]
  | none => .whileLoop condition round

/-- The first clause of a loop and the semicolon behind it. -/
def loopInitializer : Production (Option Stmt) := do
  if (← accept .semicolon).isSome then return none
  else if (← accept .kwVar).isSome then some <$> varDeclaration rules
  else some <$> expressionStatement rules

/-- An expression, unless the given symbol is next. -/
def expressionUnless (s : Symbol) : Production (Option Expr) := do
  if ← ahead s then return none
  else
    let value : Expr ← rules .expression
    return some value

/-- A loop with three clauses behind its keyword. -/
def forStatement : Production Stmt := do
  discard <| expect .leftParen .forClauses
  let initializer ← loopInitializer rules
  let condition ← expressionUnless rules .semicolon
  discard <| expect .semicolon .loopConditionEnd
  let increment ← expressionUnless rules .rightParen
  discard <| expect .rightParen .forClausesEnd
  let body : Stmt ← rules .statement
  return loopTree initializer (condition.getD (.literal (.bool true))) increment body

/-- A branch behind its keyword. -/
def ifStatement : Production Stmt := do
  discard <| expect .leftParen .ifCondition
  let condition : Expr ← rules .expression
  discard <| expect .rightParen .ifConditionEnd
  let yes : Stmt ← rules .statement
  match ← accept .kwElse with
  | some _ =>
    let no : Stmt ← rules .statement
    return .ifElse condition yes (some no)
  | none => return .ifElse condition yes none

/-- A loop with a condition only, behind its keyword. -/
def whileStatement : Production Stmt := do
  discard <| expect .leftParen .whileCondition
  let condition : Expr ← rules .expression
  discard <| expect .rightParen .whileConditionEnd
  let body : Stmt ← rules .statement
  return .whileLoop condition body

/-- The end of a loop from within, behind its keyword. -/
def breakStatement (keyword : Token) : Production Stmt := do
  discard <| expect .semicolon .breakEnd
  return .breakLoop keyword

/-- The end of a function from within, behind its keyword. -/
def returnStatement (keyword : Token) : Production Stmt := do
  let value ← expressionUnless rules .semicolon
  discard <| expect .semicolon .returnEnd
  return .returnValue keyword value

/-- Printing behind its keyword. -/
def printStatement (keyword : Token) : Production Stmt := do
  let first : Expr ← rules .expression
  let rest : List Expr ← rules .furtherValues
  discard <| expect .semicolon .printEnd
  return .print keyword (first :: rest)

/-- A statement that declares nothing. -/
def statement : Production Stmt := do
  if (← accept .kwFor).isSome then forStatement rules
  else if (← accept .kwIf).isSome then ifStatement rules
  else if (← accept .kwWhile).isSome then whileStatement rules
  else
    match ← accept .kwBreak with
    | some keyword => breakStatement keyword
    | none =>
      match ← accept .kwReturn with
      | some keyword => returnStatement rules keyword
      | none =>
        if (← accept .leftBrace).isSome then Stmt.block <$> block rules
        else
          match ← accept .kwPrint with
          | some keyword => printStatement rules keyword
          | none => expressionStatement rules

end Treewalk.Grammar
