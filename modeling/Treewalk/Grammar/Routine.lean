import Treewalk.Grammar.Phrase

/-!
Productions of blocks, parameters and named routines.
-/

namespace Treewalk.Grammar

open Production

variable (rules : Rules)

/-- The declarations of a block and the brace behind them. -/
def block : Production (List Stmt) := do
  let body : List Stmt ← rules .body
  discard <| expect .rightBrace .blockEnd
  return body

/-- Parameters and the parenthesis behind them. -/
def parameterList : Production (List Token) := do
  let params : List Token ← if ← ahead .rightParen then pure [] else rules (.parameters 0)
  discard <| expect .rightParen .parametersEnd
  return params

/-- At least one parameter. -/
def parameters (count : Nat) : Production (List Token) := do
  if arityLimit ≤ count then fail .tooManyParameters
  else
    let name ← expectName .parameterName
    match ← accept .comma with
    | some _ =>
      let rest : List Token ← rules (.parameters (count + 1))
      return name :: rest
    | none => return [name]

/-- A named routine. A method may do without parentheses. -/
def routine (kind : RoutineKind) : Production Routine := do
  let name ← expectName (.routineName kind)
  let bare ← ahead .leftBrace
  let params ←
    if kind = .method ∧ bare then pure []
    else do
      discard <| expect .leftParen (.parameterList kind)
      parameterList rules
  discard <| expect .leftBrace (.routineBody kind)
  let body ← block rules
  return ⟨name, params, body⟩

end Treewalk.Grammar
