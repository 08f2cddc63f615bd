import Treewalk.Tree.Basic

/-!
The nodes of a tree that refer to a binding, in the order of a walk that meets a node before its parts.
-/

namespace Treewalk

/-- The kinds of nodes that refer to a binding. -/
inductive ReferenceKind where
  | var
  | this
  | index
  | assign
deriving DecidableEq, Repr

/-- A node that refers to a binding. -/
structure Reference where
  kind : ReferenceKind
  id : NodeId
  token : Token
deriving DecidableEq, Repr

mutual

/-- The references in an expression. -/
def Expr.references : Expr → List Reference
  | .literal _ => []
  | .array _ _ => []
  | .unary _ right => right.references
  | .binary left _ right => left.references ++ right.references
  | .logical left _ right => left.references ++ right.references
  | .grouping inner => inner.references
  | .var id name => [⟨.var, id, name⟩]
  | .global _ => []
  | .assign id name value => ⟨.assign, id, name⟩ :: value.references
  | .ternary condition _ yes no => condition.references ++ yes.references ++ no.references
  | .call callee _ arguments => callee.references ++ Expr.allReferences arguments
  | .lambda routine => routine.references
  | .get object _ => object.references
  | .set object _ value => object.references ++ value.references
  | .this id keyword => [⟨.this, id, keyword⟩]
  | .subscript id name index => ⟨.index, id, name⟩ :: index.references

/-- The references in expressions. -/
def Expr.allReferences : List Expr → List Reference
  | [] => []
  | e :: rest => e.references ++ Expr.allReferences rest

/-- The references in a statement. -/
def Stmt.references : Stmt → List Reference
  | .expression value => value.references
  | .print _ values => Expr.allReferences values
  | .varDecl _ none => []
  | .varDecl _ (some value) => value.references
  | .block body => Stmt.allReferences body
  | .ifElse condition yes none => condition.references ++ yes.references
  | .ifElse condition yes (some no) => condition.references ++ yes.references ++ no.references
  | .whileLoop condition body => condition.references ++ body.references
  | .function routine => routine.references
  | .breakLoop _ => []
  | .returnValue _ none => []
  | .returnValue _ (some value) => value.references
  | .classDecl _ none methods => Routine.allReferences methods
  | .classDecl _ (some parent) methods => parent.references ++ Routine.allReferences methods
  | .useLibrary _ _ => []

/-- The references in statements. -/
def Stmt.allReferences : List Stmt → List Reference
  | [] => []
  | s :: rest => s.references ++ Stmt.allReferences rest

/-- The references in the body of a routine. -/
def Routine.references : Routine → List Reference
  | ⟨_, _, body⟩ => Stmt.allReferences body

/-- The references in the bodies of routines. -/
def Routine.allReferences : List Routine → List Reference
  | [] => []
  | r :: rest => r.references ++ Routine.allReferences rest

end

end Treewalk
