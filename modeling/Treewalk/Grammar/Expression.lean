import Treewalk.Grammar.Routine

/-!
Productions of expressions. Operators of one level associate to the left, prefixes and assignments to the right. An
increment has no tree of its own: it is read as the assignment it stands for.
-/

namespace Treewalk.Grammar

open Production

variable (rules : Rules)

/-- Expressions, each behind a comma. -/
def furtherValues : Production (List Expr) := do
  match ← accept .comma with
  | some _ =>
    let first : Expr ← rules .expression
    let rest : List Expr ← rules .furtherValues
    return first :: rest
  | none => return []

/-- The name of a function without one, at its keyword. -/
def anonymousName (keyword : Token) : Token :=
  keyword.standIn .identifier "anonymous"

/-- A function without a name, behind its keyword. -/
def lambda (keyword : Token) : Production Expr := do
  discard <| expect .leftParen .lambdaParameters
  let params ← parameterList rules
  discard <| expect .leftBrace (.routineBody .function)
  let body ← block rules
  return .lambda ⟨anonymousName keyword, params, body⟩

/-- An expression. The two outcomes of a condition bind as tight as the operands of an equality. -/
def expression : Production Expr := do
  match ← accept .kwFun with
  | some keyword => lambda rules keyword
  | none =>
    let condition : Expr ← rules .assignment
    match ← accept .question with
    | some question =>
      let yes : Expr ← rules (.operand .equality)
      discard <| expect .colon .ternaryColon
      let no : Expr ← rules (.operand .equality)
      return .ternary condition question yes no
    | none => return condition

/-- An assignment. What stands on the left is read as an expression first; if nothing can be assigned to it, that is
noted, and the expression itself is kept. -/
def assignment : Production Expr := do
  let target : Expr ← rules (.operand .or)
  match ← accept .equal with
  | some equals =>
    let value : Expr ← rules .assignment
    match target with
    | .var _ name =>
      let id ← fresh
      return .assign id name value
    | .get object name => return .set object name value
    | other =>
      report equals .assignmentTarget
      return other
  | none => return target

/-- An operand of an operator of the level. -/
def tighter (level : Level) : Production Expr :=
  match level.tighter? with
  | some next => rules (.operand next)
  | none => rules .unary

/-- Operands joined by operators of the level, or a single one. -/
def operand (level : Level) : Production Expr := do
  let left ← tighter rules level
  rules (.operators level left)

/-- Operators of the level with their right operands. -/
def operators (level : Level) (left : Expr) : Production Expr := do
  match ← acceptAny level.operators with
  | some operator =>
    let right ← tighter rules level
    rules (.operators level (level.combine left operator right))
  | none => return left

/-- A constant. At the end, the token that was read last is to blame. -/
def literalValue : Production Literal := do
  let token ← advance
  match token.kind with
  | .number value => return .number value
  | .string text => return .string text
  | .symbol .kwTrue => return .bool true
  | .symbol .kwFalse => return .bool false
  | .symbol .kwNil => return .nil
  | _ => failAt token (.expected .literal)

/-- The token is a constant. -/
def isLiteral (t : Token) : Bool :=
  match t.kind with
  | .number _ => true
  | .string _ => true
  | .symbol .kwTrue => true
  | .symbol .kwFalse => true
  | .symbol .kwNil => true
  | _ => false

/-- The token is a number. -/
def isNumber (t : Token) : Bool :=
  match t.kind with
  | .number _ => true
  | _ => false

/-- A constant with the opposite sign, if it is a number. -/
def negated : Literal → Literal
  | .number value => .number (-value)
  | other => other

/-- An item of an array: a constant, or a number behind a minus sign. -/
def item : Production Literal := do
  if ← look fun c => c.check (·.is .minus) && c.checkSecond isNumber then
    discard advance
    negated <$> literalValue
  else literalValue

/-- At least one item. -/
def items : Production (List Literal) := do
  let first ← item
  match ← accept .comma with
  | some _ =>
    let rest : List Literal ← rules .items
    return first :: rest
  | none => return [first]

/-- An array behind its bracket. -/
def arrayLiteral (bracket : Token) : Production Expr := do
  let values : List Literal ← if ← ahead .rightBracket then pure [] else rules .items
  discard <| expect .rightBracket .arrayEnd
  return .array bracket values

/-- Two equal signs, plus or minus, stand ahead without a gap. -/
def incrementAhead (c : Cursor) : Bool :=
  match c.ahead with
  | first :: second :: _ =>
    ((first.is .plus && second.is .plus) || (first.is .minus && second.is .minus))
      && second.offset == first.offset + 1
  | _ => false

/-- An increment or a decrement behind its name: the assignment that it stands for. -/
def increment (name : Token) : Production Expr := do
  let operator ← advance
  discard advance
  let readId ← fresh
  let id ← fresh
  return .assign id name (.binary (.var readId name) operator (.literal (.number 1)))

/-- An expression that starts with a name. -/
def named (name : Token) : Production Expr := do
  if ← look incrementAhead then increment name
  else if (← accept .leftBracket).isSome then
    let index : Expr ← rules .expression
    discard <| expect .rightBracket .indexEnd
    let id ← fresh
    return .subscript id name index
  else
    let id ← fresh
    return .var id name

/-- An expression without operators around it. -/
def primary : Production Expr := do
  match ← accept .leftBracket with
  | some bracket => arrayLiteral rules bracket
  | none =>
    if ← look (·.check isLiteral) then Expr.literal <$> literalValue
    else
      match ← accept .kwThis with
      | some keyword =>
        let id ← fresh
        return .this id keyword
      | none =>
        if (← accept .kwGlobal).isSome then
          let name ← expectName .globalName
          return .global name
        else
          match ← acceptIf Token.isIdentifier with
          | some name => named rules name
          | none =>
            if (← accept .leftParen).isSome then
              let inner : Expr ← rules .expression
              discard <| expect .rightParen .groupEnd
              return .grouping inner
            else fail (.expected .expression)

/-- A chain of prefixes, and what they apply to. -/
def unary : Production Expr := do
  match ← acceptAny [.bang, .minus] with
  | some operator =>
    let right : Expr ← rules .unary
    return .unary operator right
  | none =>
    let inner ← primary rules
    rules (.suffixes inner)

/-- At least one argument. -/
def arguments (count : Nat) : Production (List Expr) := do
  if arityLimit ≤ count then fail .tooManyArguments
  else
    let first : Expr ← rules .expression
    match ← accept .comma with
    | some _ =>
      let rest : List Expr ← rules (.arguments (count + 1))
      return first :: rest
    | none => return [first]

/-- Calls and properties behind an expression. -/
def suffixes (inner : Expr) : Production Expr := do
  if (← accept .leftParen).isSome then
    let arguments : List Expr ← if ← ahead .rightParen then pure [] else rules (.arguments 0)
    let paren ← expect .rightParen .argumentsEnd
    rules (.suffixes (.call inner paren arguments))
  else if (← accept .dot).isSome then
    let name ← expectName .propertyName
    rules (.suffixes (.get inner name))
  else return inner

end Treewalk.Grammar
