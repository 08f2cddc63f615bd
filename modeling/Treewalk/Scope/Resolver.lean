import Treewalk.Diagnostic
import Treewalk.Scope.Basic

/-!
The check of a program before it runs. It records the distance of each reference to a local name, refuses phrases that
have no meaning where they stand, and advises about names that nothing refers to. The outermost level has no scope: its
names are global.
-/

namespace Treewalk

/-- Why a phrase has no meaning where it stands. -/
inductive ScopeFault where
  | redeclared
  | ownInitializer
  | breakOutsideLoop
  | returnOutsideFunction
  | thisOutsideClass
  | inheritsItself
deriving DecidableEq, Repr

/-- The wording of a fault. -/
def ScopeFault.message : ScopeFault → String
  | redeclared => "Already a variable with this name in this scope."
  | ownInitializer => "Can't read local variable in its own initializer."
  | breakOutsideLoop => "Can't use 'break' outside of a loop."
  | returnOutsideFunction => "Can't return from top-level code."
  | thisOutsideClass => "Can't use 'this' outside of a class."
  | inheritsItself => "A class can't inherit from itself."

/-- What the check has to say. -/
inductive Finding where
  | fault (token : Token) (cause : ScopeFault)
  | unused (token : Token)
deriving DecidableEq, Repr

/-- The report of a finding. -/
def Finding.diagnostic : Finding → Diagnostic
  | .fault token cause => .resolve (.ofToken token) cause.message
  | .unused token => .unusedVariable token.lexeme token.line

/-- The body in which a phrase stands. -/
inductive Enclosing where
  | none
  | function
  | method
  | initializer
deriving DecidableEq, Repr

/-- A node that was looked up, the name that it refers to and its distance; a global name has none. -/
structure Lookup where
  id : NodeId
  name : String
  distance : Option Nat
deriving DecidableEq, Repr

/-- The state of the check: the open scopes, the innermost first; the enclosing body; whether a class encloses the
phrase; the number of loops around it within its body; what was found; the distances; and the nodes that were looked up,
in their order. -/
structure Resolver where
  scopes : List Scope := []
  enclosing : Enclosing := .none
  inClass : Bool := false
  loops : Nat := 0
  findings : List Finding := []
  distances : Distances := {}
  log : List Lookup := []

namespace Resolver

/-- Notes a fault. -/
def refuse (r : Resolver) (token : Token) (fault : ScopeFault) : Resolver :=
  { r with findings := r.findings ++ [.fault token fault] }

/-- Opens a scope that declares nothing yet. -/
def openScope (r : Resolver) : Resolver :=
  { r with scopes := [] :: r.scopes }

/-- Closes the innermost scope and advises about its unused names. -/
def closeScope (r : Resolver) : Resolver :=
  match r.scopes with
  | [] => r
  | scope :: outer => { r with scopes := outer, findings := r.findings ++ scope.unused.map .unused }

/-- Declares a name in the innermost scope, once. -/
def declare (r : Resolver) (token : Token) : Resolver :=
  match r.scopes with
  | [] => r
  | scope :: outer =>
    if (scope.find? token.lexeme).isSome then r.refuse token .redeclared
    else { r with scopes := scope.declare token :: outer }

/-- Notes that a name of the innermost scope has its value. -/
def define (r : Resolver) (token : Token) : Resolver :=
  match r.scopes with
  | [] => r
  | scope :: outer => { r with scopes := scope.define token.lexeme :: outer }

/-- Declares a name that has its value at once. -/
def introduce (r : Resolver) (token : Token) : Resolver :=
  (r.declare token).define token

/-- The name stands in the innermost scope without a value. -/
def inOwnInitializer (r : Resolver) (name : String) : Bool :=
  match r.scopes with
  | [] => false
  | scope :: _ => (scope.find? name).any (!·.defined)

/-- Refuses to read a name in its own initializer. -/
def checkRead (r : Resolver) (token : Token) : Resolver :=
  if r.inOwnInitializer token.lexeme then r.refuse token .ownInitializer else r

/-- The distance to the nearest scope that declares a name. -/
def distance? (scopes : List Scope) (name : String) : Option Nat :=
  scopes.findIdx? fun scope => (scope.find? name).isSome

/-- Records the distance of a node to the scope that declares its name, which counts as used. A name that no scope
declares is global. Either way the node is in the log. -/
def refer (r : Resolver) (id : NodeId) (token : Token) : Resolver :=
  match distance? r.scopes token.lexeme with
  | some d =>
    { r with
      scopes := r.scopes.modify d (·.use token.lexeme)
      distances := r.distances.record id d
      log := r.log ++ [⟨id, token.lexeme, some d⟩] }
  | none => { r with log := r.log ++ [⟨id, token.lexeme, none⟩] }

/-- The scope around the methods of a class, which declares the receiver. -/
def openReceiver (r : Resolver) (className : Token) : Resolver :=
  { r with scopes := [⟨className.standIn (.symbol .kwThis) "this", true, true⟩] :: r.scopes }

end Resolver

/-- The name of the method that initializes instances. -/
def initializerName : String := "init"

mutual

/-- Checks an expression. -/
def Expr.resolve : Expr → Resolver → Resolver
  | .literal _, r => r
  | .array _ _, r => r
  | .unary _ right, r => right.resolve r
  | .binary left _ right, r => right.resolve (left.resolve r)
  | .logical left _ right, r => right.resolve (left.resolve r)
  | .grouping inner, r => inner.resolve r
  | .var id name, r => (r.checkRead name).refer id name
  | .global _, r => r
  | .assign id name value, r => (value.resolve r).refer id name
  | .ternary condition _ yes no, r => no.resolve (yes.resolve (condition.resolve r))
  | .call callee _ arguments, r => Expr.resolveAll arguments (callee.resolve r)
  | .lambda routine, r => routine.resolve .function r
  | .get object _, r => object.resolve r
  | .set object _ value, r => object.resolve (value.resolve r)
  | .this id keyword, r => if r.inClass then r.refer id keyword else r.refuse keyword .thisOutsideClass
  | .subscript id name index, r => index.resolve ((r.checkRead name).refer id name)

/-- Checks expressions in their order. -/
def Expr.resolveAll : List Expr → Resolver → Resolver
  | [], r => r
  | e :: rest, r => Expr.resolveAll rest (e.resolve r)

/-- Checks a statement. -/
def Stmt.resolve : Stmt → Resolver → Resolver
  | .expression value, r => value.resolve r
  | .print _ values, r => Expr.resolveAll values r
  | .varDecl name none, r => r.introduce name
  | .varDecl name (some value), r => (value.resolve (r.declare name)).define name
  | .block body, r => (Stmt.resolveAll body r.openScope).closeScope
  | .ifElse condition yes none, r => yes.resolve (condition.resolve r)
  | .ifElse condition yes (some no), r => no.resolve (yes.resolve (condition.resolve r))
  | .whileLoop condition body, r =>
    let r := condition.resolve r
    let r := body.resolve { r with loops := r.loops + 1 }
    { r with loops := r.loops - 1 }
  | .function routine, r => routine.resolve .function (r.introduce routine.name)
  | .breakLoop keyword, r => if r.loops = 0 then r.refuse keyword .breakOutsideLoop else r
  | .returnValue keyword value, r =>
    let r := if r.enclosing = .none then r.refuse keyword .returnOutsideFunction else r
    match value with
    | none => r
    | some e => e.resolve r
  | .classDecl name parent methods, r =>
    let outer := r.inClass
    let r := { r with inClass := true }.introduce name
    let r :=
      match parent with
      | none => r
      | some e =>
        let own :=
          match e with
          | .var _ token => if token.lexeme == name.lexeme then r.refuse token .inheritsItself else r
          | _ => r
        e.resolve own
    let r := (Routine.resolveMethods methods (r.openReceiver name)).closeScope
    { r with inClass := outer }
  | .useLibrary _ _, r => r

/-- Checks statements in their order. -/
def Stmt.resolveAll : List Stmt → Resolver → Resolver
  | [], r => r
  | s :: rest, r => Stmt.resolveAll rest (s.resolve r)

/-- Checks a routine. Parameters and body share one scope, and the loops around the routine do not count in it. -/
def Routine.resolve (kind : Enclosing) : Routine → Resolver → Resolver
  | ⟨_, params, body⟩, r =>
    let outer := r.enclosing
    let loops := r.loops
    let r := params.foldl Resolver.introduce { r with enclosing := kind, loops := 0 }.openScope
    let r := (Stmt.resolveAll body r).closeScope
    { r with enclosing := outer, loops := loops }

/-- Checks methods in their order. -/
def Routine.resolveMethods : List Routine → Resolver → Resolver
  | [], r => r
  | m :: rest, r =>
    let kind := if m.name.lexeme == initializerName then .initializer else .method
    Routine.resolveMethods rest (m.resolve kind r)

end

/-- Checks a program, adding to the distances that are already known. -/
def Stmt.check (distances : Distances) (program : List Stmt) : Resolver :=
  Stmt.resolveAll program { distances }

end Treewalk
