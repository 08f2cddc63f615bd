import Treewalk.Grammar.Statement

/-!
Productions of declarations. An error anywhere in a declaration gives it up; reading resumes at the next boundary.
-/

namespace Treewalk.Grammar

open Production

variable (rules : Rules)

/-- Methods up to a closing brace or the end. -/
def methods : Production (List Routine) := do
  if ← look fun c => c.atEnd || c.check (·.is .rightBrace) then return []
  else
    let first ← routine rules .method
    let rest : List Routine ← rules .methods
    return first :: rest

/-- A class behind its keyword. -/
def classDeclaration : Production Stmt := do
  let name ← expectName .className
  let parent : Option Expr ←
    match ← accept .less with
    | some _ => do
      let parent ← expectName .superclassName
      let id ← fresh
      pure (some (.var id parent))
    | none => pure none
  discard <| expect .leftBrace .classBody
  let methods : List Routine ← rules .methods
  discard <| expect .rightBrace .classEnd
  return .classDecl name parent methods

/-- The token is a library path. -/
def isPath (t : Token) : Bool :=
  match t.kind with
  | .path _ => true
  | _ => false

/-- The use of a library behind its keyword. -/
def useDeclaration (keyword : Token) : Production Stmt := do
  let path ← expectIf isPath .libraryPath
  discard <| expect .semicolon .libraryEnd
  return .useLibrary keyword path

/-- A declaration. The keyword of a function declares one only before a name. -/
def declared : Production Stmt := do
  if (← accept .kwClass).isSome then classDeclaration rules
  else if ← look fun c => c.check (·.is .kwFun) && c.checkSecond Token.isIdentifier then
    discard advance
    let function ← routine rules .function
    return .function function
  else if (← accept .kwVar).isSome then varDeclaration rules
  else
    match ← accept .kwUse with
    | some keyword => useDeclaration keyword
    | none => rules .statement

/-- A declaration, or nothing: an error in it is noted, and reading resumes behind it. -/
def declaration : Production (Option Stmt) := fun c =>
  match declared rules c with
  | .ok s next => .ok (some s) next
  | .failed e next => .ok none (next.report e).resume
  | .exhausted => .exhausted

/-- Declarations up to a closing brace or the end. -/
def body : Production (List Stmt) := do
  if ← look fun c => c.atEnd || c.check (·.is .rightBrace) then return []
  else
    let first : Option Stmt ← rules .declaration
    let rest : List Stmt ← rules .body
    return first.toList ++ rest

/-- Declarations up to the end. -/
def program : Production (List Stmt) := do
  if ← look Cursor.atEnd then return []
  else
    let first : Option Stmt ← rules .declaration
    let rest : List Stmt ← rules .program
    return first.toList ++ rest

end Treewalk.Grammar
