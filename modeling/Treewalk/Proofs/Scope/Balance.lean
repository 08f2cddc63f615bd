import Treewalk.Proofs.Scope.Jumps
import Treewalk.Proofs.Scope.Passing
import Treewalk.Proofs.Tree.Parts

/-!
The balance of the check. Whatever state it starts in and whatever tree it goes through, the check comes out with the
scopes, the body, the class and the loops that it went in with. Of the names in the scopes around a tree only the marks of
those that are referred to are new; the innermost scope also has what a statement declares in it, with a value. What was
found stays found, and a distance is never recorded that leads beyond the open scopes.

A statement gives a value to the names that it declares, also to one that stood in the innermost scope without a value. The
check never comes to a statement in such a state.
-/

namespace Treewalk

/-- The check of a tree is balanced: it is back in its context, with as many open scopes. -/
structure Resolver.Balanced (declared : List Token) (visits : List Visit) (r r' : Resolver) : Prop
    extends Level r r', Passing declared visits r r' where
  depth : r'.scopes.length = r.scopes.length

open Resolver

theorem Expr.balanced (e : Expr) (r : Resolver) : Balanced [] (e.visits [] r) r (e.resolve r) :=
  have h := e.passing [] r
  ⟨e.level r, h, h.scopes.length_eq⟩

theorem Stmt.balanced (s : Stmt) (r : Resolver) : Balanced s.declares (s.visits [] r) r (s.resolve r) :=
  have h := s.passing [] r
  ⟨s.level r, h, h.scopes.length_eq⟩

/-! ### Statements that the check comes to -/

/-- The checks of expressions one after the other, each with the state in which it starts. -/
def Expr.inTurn : List Expr → Resolver → List (Tree × Resolver)
  | [], _ => []
  | e :: rest, r => (.expr e, r) :: Expr.inTurn rest (e.resolve r)

/-- The checks of statements one after the other, each with the state in which it starts. -/
def Stmt.inTurn : List Stmt → Resolver → List (Tree × Resolver)
  | [], _ => []
  | s :: rest, r => (.stmt s, r) :: Stmt.inTurn rest (s.resolve r)

/-- The checks of the statements in a routine. -/
def Routine.inTurn (kind : Enclosing) (routine : Routine) (r : Resolver) : List (Tree × Resolver) :=
  Stmt.inTurn routine.body (r.enter kind routine.params)

/-- The checks of the statements in methods. -/
def Routine.methodsInTurn : List Routine → Resolver → List (Tree × Resolver)
  | [], _ => []
  | m :: rest, r =>
    let kind := if m.name.lexeme == initializerName then .initializer else .method
    m.inTurn kind r ++ Routine.methodsInTurn rest (m.resolve kind r)

/-- The state in which the superclass of a class is checked. -/
def Resolver.atSuperclass (r : Resolver) (name : Token) (parent : Expr) : Resolver :=
  let r := { r with inClass := true }.introduce name
  match parent with
  | .var _ token => if token.lexeme == name.lexeme then r.refuse token .inheritsItself else r
  | _ => r

/-- The checks that the check of an expression asks for. -/
def Expr.asks : Expr → Resolver → List (Tree × Resolver)
  | .unary _ right, r => Expr.inTurn [right] r
  | .binary left _ right, r => Expr.inTurn [left, right] r
  | .logical left _ right, r => Expr.inTurn [left, right] r
  | .grouping inner, r => Expr.inTurn [inner] r
  | .assign _ _ value, r => Expr.inTurn [value] r
  | .ternary condition _ yes no, r => Expr.inTurn [condition, yes, no] r
  | .call callee _ arguments, r => Expr.inTurn (callee :: arguments) r
  | .lambda routine, r => routine.inTurn .function r
  | .get object _, r => Expr.inTurn [object] r
  | .set object _ value, r => Expr.inTurn [value, object] r
  | .subscript id name index, r => Expr.inTurn [index] ((r.checkRead name).refer id name)
  | _, _ => []

/-- The checks that the check of a statement asks for. -/
def Stmt.asks : Stmt → Resolver → List (Tree × Resolver)
  | .expression value, r => Expr.inTurn [value] r
  | .print _ values, r => Expr.inTurn values r
  | .varDecl name value, r => Expr.inTurn value.toList (r.declare name)
  | .block body, r => Stmt.inTurn body r.openScope
  | .ifElse condition yes no, r => (.expr condition, r) :: Stmt.inTurn (yes :: no.toList) (condition.resolve r)
  | .whileLoop condition body, r =>
    (.expr condition, r) :: Stmt.inTurn [body] { condition.resolve r with loops := (condition.resolve r).loops + 1 }
  | .function routine, r => routine.inTurn .function (r.introduce routine.name)
  | .returnValue keyword value, r =>
    Expr.inTurn value.toList (if r.enclosing = .none then r.refuse keyword .returnOutsideFunction else r)
  | .classDecl name parent methods, r =>
    (parent.toList.flatMap fun e => Expr.inTurn [e] (r.atSuperclass name e))
      ++ Routine.methodsInTurn methods ((r.afterSuperclass name parent).openReceiver name)
  | _, _ => []

/-- The check of the first tree, in the first state, comes to that of the second one, in the second state. -/
inductive Tree.ComesTo : Tree → Resolver → Tree → Resolver → Prop where
  | self {t : Tree} {r : Resolver} : ComesTo t r t r
  | ofExpr {e : Expr} {r : Resolver} {x : Tree × Resolver} {u : Tree} {q : Resolver} (hx : x ∈ e.asks r)
      (h : ComesTo x.1 x.2 u q) : ComesTo (.expr e) r u q
  | ofStmt {s : Stmt} {r : Resolver} {x : Tree × Resolver} {u : Tree} {q : Resolver} (hx : x ∈ s.asks r)
      (h : ComesTo x.1 x.2 u q) : ComesTo (.stmt s) r u q

/-- A statement is checked where all names of the innermost scope have their values. -/
def Tree.Calm (t : Tree) (r : Resolver) : Prop := ∀ s, t = .stmt s → r.Settled

theorem Expr.calm_inTurn (es : List Expr) (r : Resolver) : ∀ x ∈ Expr.inTurn es r, x.1.Calm x.2 := by
  induction es generalizing r with
  | nil => exact fun _ hx => absurd hx List.not_mem_nil
  | cons e rest ih => exact List.forall_mem_cons.mpr ⟨nofun, ih _⟩

theorem Stmt.calm_inTurn (body : List Stmt) {r : Resolver} (h : r.Settled) : ∀ x ∈ Stmt.inTurn body r, x.1.Calm x.2 := by
  induction body generalizing r with
  | nil => exact fun _ hx => absurd hx List.not_mem_nil
  | cons s rest ih => exact List.forall_mem_cons.mpr ⟨fun _ _ => h, ih ((s.passing [] r).settled h)⟩

theorem Routine.calm_inTurn (kind : Enclosing) (routine : Routine) (r : Resolver) :
    ∀ x ∈ routine.inTurn kind r, x.1.Calm x.2 :=
  Stmt.calm_inTurn routine.body (r.settled_enter kind routine.params)

theorem Routine.calm_methodsInTurn (methods : List Routine) (r : Resolver) :
    ∀ x ∈ Routine.methodsInTurn methods r, x.1.Calm x.2 := by
  induction methods generalizing r with
  | nil => exact fun _ hx => absurd hx List.not_mem_nil
  | cons m rest ih => exact List.forall_mem_append.mpr ⟨m.calm_inTurn _ r, ih _⟩

theorem Expr.calm_asks (e : Expr) (r : Resolver) : ∀ x ∈ e.asks r, x.1.Calm x.2 := by
  cases e with
  | lambda routine => exact routine.calm_inTurn _ _
  | literal | array | var | global | this => exact fun _ hx => absurd hx List.not_mem_nil
  | _ => exact Expr.calm_inTurn _ _

theorem Stmt.calm_asks (s : Stmt) {r : Resolver} (h : r.Settled) : ∀ x ∈ s.asks r, x.1.Calm x.2 := by
  cases s with
  | expression value => exact Expr.calm_inTurn _ _
  | print _ values => exact Expr.calm_inTurn _ _
  | varDecl name value => exact Expr.calm_inTurn _ _
  | block body => exact Stmt.calm_inTurn body r.settled_openScope
  | ifElse condition yes no =>
    exact List.forall_mem_cons.mpr ⟨nofun, Stmt.calm_inTurn _ ((condition.passing [] r).settled h)⟩
  | whileLoop condition body =>
    have hcondition : (condition.resolve r).Settled := (condition.passing [] r).settled h
    refine List.forall_mem_cons.mpr ⟨nofun, Stmt.calm_inTurn [body] ?_⟩
    exact hcondition
  | function routine => exact routine.calm_inTurn _ _
  | breakLoop _ => exact fun _ hx => absurd hx List.not_mem_nil
  | returnValue keyword value => exact Expr.calm_inTurn _ _
  | classDecl name parent methods =>
    refine List.forall_mem_append.mpr ⟨fun x hx => ?_, Routine.calm_methodsInTurn methods _⟩
    obtain ⟨e, -, hx⟩ := List.mem_flatMap.mp hx
    exact Expr.calm_inTurn _ _ x hx
  | useLibrary _ _ => exact fun _ hx => absurd hx List.not_mem_nil

theorem Tree.ComesTo.calm {t u : Tree} {r q : Resolver} (h : t.ComesTo r u q) (ht : t.Calm r) : u.Calm q := by
  induction h with
  | self => exact ht
  | @ofExpr e r x _ _ hx _ ih => exact ih (e.calm_asks r x hx)
  | @ofStmt s r x _ _ hx _ ih => exact ih (s.calm_asks (ht s rfl) x hx)

/-- What the innermost scope had is kept by a statement that is checked where all of it has values. -/
theorem Resolver.Passing.innermost {declared : List Token} {visits : List Visit} {r r' : Resolver}
    (h : Passing declared visits r r') (hr : r.Settled) {scope : Scope} (hscope : scope ∈ r.scopes.head?) :
    ∃ old new, r'.scopes.head? = some (old ++ new) ∧ scope.Kept old ∧ ∀ y ∈ new, y.token ∈ declared := by
  have hscopes := h.scopes
  have hdefined := hr scope hscope
  cases hs : r.scopes with
  | nil =>
    rw [hs] at hscope
    cases hscope
  | cons first outer =>
    rw [hs] at hscope hscopes
    cases hscope
    cases hs' : r'.scopes with
    | nil =>
      rw [hs'] at hscopes
      cases hscopes
    | cons first' outer' =>
      rw [hs'] at hscopes
      cases hscopes with
      | within hgains _ =>
        obtain ⟨old, new, rfl, hold, hnew⟩ := hgains.entries.split hdefined
        exact ⟨old, new, rfl, hold, hnew⟩

/-- The check of every expression and of every statement is balanced, whatever state it starts in. From the state in which
the check of a program comes to a statement, the innermost scope too keeps all its names, with their values. -/
theorem check_is_balanced (r : Resolver) :
    (∀ e : Expr, Balanced [] (e.visits [] r) r (e.resolve r)) ∧
      (∀ s : Stmt, Balanced s.declares (s.visits [] r) r (s.resolve r)) ∧
      ∀ (program : List Stmt) (distances : Distances), ∀ x ∈ Stmt.inTurn program { distances },
        ∀ s : Stmt, x.1.ComesTo x.2 (.stmt s) r → ∀ scope ∈ r.scopes.head?,
          ∃ old new, (s.resolve r).scopes.head? = some (old ++ new) ∧ scope.Kept old ∧ ∀ y ∈ new, y.token ∈ s.declares := by
  refine ⟨fun e => e.balanced r, fun s => s.balanced r, fun program distances x hx s hcomes scope hscope => ?_⟩
  have hstart : Resolver.Settled { distances } := nofun
  have hsettled := hcomes.calm (Stmt.calm_inTurn program hstart x hx) s rfl
  exact (s.passing [] r).innermost hsettled hscope

/-- A variable in the body of a function leaves the parameter as it is. -/
theorem parameter_kept_beside_variable :
    let f : Token := ⟨.identifier, "f", 1, 4⟩
    let p : Token := ⟨.identifier, "p", 1, 6⟩
    let v : Token := ⟨.identifier, "v", 1, 15⟩
    let q := ((({} : Resolver).introduce f).enter .function [p])
    ∃ old new, ((Stmt.varDecl v none).resolve q).scopes.head? = some (old ++ new) ∧
      Scope.Kept [⟨p, true, false⟩] old ∧ ∀ y ∈ new, y.token ∈ [v] := by
  intro f p v q
  refine (check_is_balanced q).2.2 [.function ⟨f, [p], [.varDecl v none]⟩] {} _ List.mem_cons_self (.varDecl v none) ?_ _ rfl
  exact .ofStmt List.mem_cons_self .self

/-! ### Limits of the balance -/

namespace Waiting

def name : Token := ⟨.identifier, "x", 1, 6⟩

/-- The innermost scope has a name without a value. -/
def start : Resolver := { scopes := [[⟨name, false, false⟩]] }

def again : Stmt := .varDecl name none

/-- A block with a variable and a reference to it. -/
def inner : Stmt := .block [.varDecl name (some (.literal (.number 1))), .expression (.var 0 ⟨.identifier, "x", 1, 13⟩)]

end Waiting

/-- In a state to which the check does not come, a declaration gives a value to a name that stood in the innermost scope
without one, and so does not keep it. And a distance counts the scopes that are open at the reference: around the statement
there may be fewer, and none at all. -/
theorem waiting_name_is_given_its_value :
    (Waiting.again.resolve Waiting.start).scopes = [[⟨Waiting.name, true, false⟩]] ∧
      (¬∃ old new, (Waiting.again.resolve Waiting.start).scopes.head? = some (old ++ new) ∧
        Scope.Kept [⟨Waiting.name, false, false⟩] old ∧ ∀ y ∈ new, y.token ∈ Waiting.again.declares) ∧
      (Waiting.inner.resolve {}).scopes = [] ∧ (Waiting.inner.resolve {}).distances.find? 0 = some 0 := by
  have hscopes : (Waiting.again.resolve Waiting.start).scopes = [[⟨Waiting.name, true, false⟩]] := rfl
  refine ⟨hscopes, ?_, rfl, rfl⟩
  rintro ⟨old, new, heq, hkept, -⟩
  rw [hscopes] at heq
  cases hkept with
  | @cons _ y _ rest hfirst _ =>
    have hy : [⟨Waiting.name, true, false⟩] = y :: (rest ++ new) := Option.some.inj heq
    have hdefined := hfirst.defined
    rw [← (List.cons.inj hy).1] at hdefined
    cases hdefined

end Treewalk
