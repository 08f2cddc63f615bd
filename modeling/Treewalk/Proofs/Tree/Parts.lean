import Treewalk.Tree.Basic

/-!
The nodes of a syntax tree, and what holds at each of them. Expressions, statements and routines contain one another; a
node is any of them. The operators that nodes can have are listed by kind.
-/

namespace Treewalk

/-- The token is one of the symbols. -/
def Token.IsOneOf (t : Token) (symbols : List Symbol) : Prop := symbols.any t.is

theorem Token.isOneOf_iff {t : Token} {symbols : List Symbol} :
    t.IsOneOf symbols ↔ ∃ s ∈ symbols, t.kind = .symbol s := by
  simp [Token.IsOneOf, Token.is]

theorem Token.isOneOf_of_is {t : Token} {s : Symbol} {symbols : List Symbol} (h : t.is s) (hs : s ∈ symbols) :
    t.IsOneOf symbols := List.any_eq_true.mpr ⟨s, hs, h⟩

namespace Operator

/-- The operators with one operand. -/
def signs : List Symbol := [.bang, .minus]

/-- The operators with two operands that evaluate both. -/
def operations : List Symbol :=
  [.plus, .minus, .star, .slash, .greater, .greaterEqual, .less, .lessEqual, .equalEqual, .bangEqual]

/-- The operators that may do without their right operand. -/
def connectives : List Symbol := [.kwAnd, .kwOr]

end Operator

/-- The expressions that an expression evaluates. -/
def Expr.parts : Expr → List Expr
  | .unary _ right => [right]
  | .binary left _ right => [left, right]
  | .logical left _ right => [left, right]
  | .grouping inner => [inner]
  | .assign _ _ value => [value]
  | .ternary condition _ yes no => [condition, yes, no]
  | .call callee _ arguments => callee :: arguments
  | .get object _ => [object]
  | .set object _ value => [object, value]
  | .subscript _ _ index => [index]
  | _ => []

/-- The routine of a function without a name. -/
def Expr.routines : Expr → List Routine
  | .lambda routine => [routine]
  | _ => []

/-- The statements that a statement runs in its own frame. -/
def Stmt.branches : Stmt → List Stmt
  | .ifElse _ yes no => yes :: no.toList
  | .whileLoop _ body => [body]
  | _ => []

/-- The statements that a statement runs in a new frame. -/
def Stmt.inner : Stmt → List Stmt
  | .block body => body
  | _ => []

/-- The routines that a statement declares. -/
def Stmt.routines : Stmt → List Routine
  | .function routine => [routine]
  | .classDecl _ _ methods => methods
  | _ => []

/-- A node of a syntax tree. -/
inductive Tree where
  | expr (e : Expr)
  | stmt (s : Stmt)
  | routine (r : Routine)

namespace Tree

/-- The nodes right below a node. -/
def parts : Tree → List Tree
  | expr e => e.parts.map expr ++ e.routines.map routine
  | stmt s => s.expressions.map expr ++ s.branches.map stmt ++ s.inner.map stmt ++ s.routines.map routine
  | routine r => r.body.map stmt

/-- The second node is the first one or stands below it. -/
inductive Holds : Tree → Tree → Prop where
  | self {t} : Holds t t
  | within {t part u} : part ∈ t.parts → Holds part u → Holds t u

/-- What is said holds at the node and at all nodes below it. -/
def Everywhere (P : Tree → Prop) (t : Tree) : Prop :=
  ∀ u, t.Holds u → P u

namespace Everywhere

variable {P : Tree → Prop} {t u : Tree}

theorem intro (h : P t) (hparts : ∀ part ∈ t.parts, part.Everywhere P) : t.Everywhere P := by
  intro u hu
  cases hu with
  | self => exact h
  | within hpart hu => exact hparts _ hpart u hu

theorem of_expr {e : Expr} (h : P (expr e)) (hparts : ∀ part ∈ e.parts, (expr part).Everywhere P)
    (hroutines : ∀ r ∈ e.routines, (routine r).Everywhere P) : (expr e).Everywhere P :=
  .intro h (List.forall_mem_append.mpr ⟨List.forall_mem_map.mpr hparts, List.forall_mem_map.mpr hroutines⟩)

theorem of_stmt {s : Stmt} (h : P (stmt s)) (hexpressions : ∀ e ∈ s.expressions, (expr e).Everywhere P)
    (hbranches : ∀ branch ∈ s.branches, (stmt branch).Everywhere P) (hinner : ∀ i ∈ s.inner, (stmt i).Everywhere P)
    (hroutines : ∀ r ∈ s.routines, (routine r).Everywhere P) : (stmt s).Everywhere P := by
  refine .intro h (List.forall_mem_append.mpr ⟨?_, List.forall_mem_map.mpr hroutines⟩)
  refine List.forall_mem_append.mpr ⟨?_, List.forall_mem_map.mpr hinner⟩
  exact List.forall_mem_append.mpr ⟨List.forall_mem_map.mpr hexpressions, List.forall_mem_map.mpr hbranches⟩

theorem of_routine {r : Routine} (h : P (routine r)) (hbody : ∀ s ∈ r.body, (stmt s).Everywhere P) :
    (routine r).Everywhere P :=
  .intro h (List.forall_mem_map.mpr hbody)

theorem here (h : t.Everywhere P) : P t := h t .self

theorem part (h : t.Everywhere P) (hu : u ∈ t.parts) : u.Everywhere P := fun v hv => h v (.within hu hv)

theorem operand {e operand : Expr} (h : (expr e).Everywhere P) (ho : operand ∈ e.parts) : (expr operand).Everywhere P :=
  h.part (List.mem_append_left _ (List.mem_map_of_mem ho))

theorem made {e : Expr} {r : Routine} (h : (expr e).Everywhere P) (hr : r ∈ e.routines) : (routine r).Everywhere P :=
  h.part (List.mem_append_right _ (List.mem_map_of_mem hr))

theorem expression {s : Stmt} {e : Expr} (h : (stmt s).Everywhere P) (he : e ∈ s.expressions) : (expr e).Everywhere P :=
  h.part (by simp [parts, he])

theorem branch {s branch : Stmt} (h : (stmt s).Everywhere P) (hb : branch ∈ s.branches) : (stmt branch).Everywhere P :=
  h.part (by simp [parts, hb])

theorem inner {s inner : Stmt} (h : (stmt s).Everywhere P) (hi : inner ∈ s.inner) : (stmt inner).Everywhere P :=
  h.part (by simp [parts, hi])

theorem declared {s : Stmt} {r : Routine} (h : (stmt s).Everywhere P) (hr : r ∈ s.routines) : (routine r).Everywhere P :=
  h.part (by simp [parts, hr])

theorem body {r : Routine} {s : Stmt} (h : (routine r).Everywhere P) (hs : s ∈ r.body) : (stmt s).Everywhere P :=
  h.part (List.mem_map_of_mem hs)

end Everywhere

end Tree

end Treewalk
