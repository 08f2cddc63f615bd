import Treewalk.Heap.Class
import Treewalk.Proofs.Grammar.Order
import Treewalk.Proofs.Token.Spelling

/-!
What is named in trees of the grammar. No variable, parameter, function or class is called as the receiver is, nor is it
assigned to; and where the receiver is meant, it is called so.
-/

namespace Treewalk

/-- The token does not name the receiver. -/
def Token.NotReceiver (t : Token) : Prop := t.lexeme ≠ receiverName

theorem Token.Spelled.notReceiver {t : Token} (h : t.Spelled) (ht : t.isIdentifier) : t.NotReceiver := by
  intro heq
  have hnone := h.identifier (beq_iff_eq.mp ht)
  rw [heq] at hnone
  cases hnone

theorem Token.Spelled.receiver {t : Token} (h : t.Spelled) (ht : t.is .kwThis) : t.lexeme = receiverName := by
  have hsome := h.keyword .kwThis (by decide) (beq_iff_eq.mp ht)
  have hfound : Symbol.keywords.find? (fun s => s.spelling == t.lexeme) = some .kwThis := hsome
  have hspelling := List.find?_some hfound
  exact (beq_iff_eq.mp hspelling).symm

mutual

/-- Nothing in the expression that binds a name has the name of the receiver, and the receiver has it. -/
def Expr.Named : Expr → Prop
  | .literal _ => True
  | .array _ _ => True
  | .unary _ right => right.Named
  | .binary left _ right => left.Named ∧ right.Named
  | .logical left _ right => left.Named ∧ right.Named
  | .grouping inner => inner.Named
  | .var _ _ => True
  | .global _ => True
  | .assign _ name value => name.NotReceiver ∧ value.Named
  | .ternary condition _ yes no => condition.Named ∧ yes.Named ∧ no.Named
  | .call callee _ arguments => callee.Named ∧ Expr.AllNamed arguments
  | .lambda routine => routine.Named
  | .get object _ => object.Named
  | .set object _ value => object.Named ∧ value.Named
  | .this _ keyword => keyword.lexeme = receiverName
  | .subscript _ _ index => index.Named

def Expr.AllNamed : List Expr → Prop
  | [] => True
  | e :: rest => e.Named ∧ Expr.AllNamed rest

/-- Nothing in the statement that binds a name has the name of the receiver, and the receiver has it. -/
def Stmt.Named : Stmt → Prop
  | .expression value => value.Named
  | .print _ values => Expr.AllNamed values
  | .varDecl name none => name.NotReceiver
  | .varDecl name (some value) => name.NotReceiver ∧ value.Named
  | .block body => Stmt.AllNamed body
  | .ifElse condition yes none => condition.Named ∧ yes.Named
  | .ifElse condition yes (some no) => condition.Named ∧ yes.Named ∧ no.Named
  | .whileLoop condition body => condition.Named ∧ body.Named
  | .function routine => routine.name.NotReceiver ∧ routine.Named
  | .breakLoop _ => True
  | .returnValue _ none => True
  | .returnValue _ (some value) => value.Named
  | .classDecl name none methods => name.NotReceiver ∧ Routine.AllNamed methods
  | .classDecl name (some parent) methods => name.NotReceiver ∧ parent.Named ∧ Routine.AllNamed methods
  | .useLibrary _ _ => True

def Stmt.AllNamed : List Stmt → Prop
  | [] => True
  | s :: rest => s.Named ∧ Stmt.AllNamed rest

/-- Neither the parameters nor anything in the body of the routine have the name of the receiver. -/
def Routine.Named : Routine → Prop
  | ⟨_, params, body⟩ => (∀ p ∈ params, p.NotReceiver) ∧ Stmt.AllNamed body

def Routine.AllNamed : List Routine → Prop
  | [] => True
  | r :: rest => r.Named ∧ Routine.AllNamed rest

end

theorem Expr.allNamed_iff {es : List Expr} : Expr.AllNamed es ↔ ∀ e ∈ es, e.Named := by
  induction es with
  | nil => simp [Expr.AllNamed]
  | cons e rest ih => simp [Expr.AllNamed, ih]

theorem Stmt.allNamed_iff {body : List Stmt} : Stmt.AllNamed body ↔ ∀ s ∈ body, s.Named := by
  induction body with
  | nil => simp [Stmt.AllNamed]
  | cons s rest ih => simp [Stmt.AllNamed, ih]

theorem Routine.allNamed_iff {routines : List Routine} : Routine.AllNamed routines ↔ ∀ r ∈ routines, r.Named := by
  induction routines with
  | nil => simp [Routine.AllNamed]
  | cons r rest ih => simp [Routine.AllNamed, ih]

theorem Stmt.Named.declared? {s : Stmt} (h : s.Named) {name : Token} (hname : s.declared? = some name) :
    name.NotReceiver := by
  cases s with
  | varDecl declared value =>
    cases hname
    cases value with
    | none => exact h
    | some value => exact h.1
  | function routine =>
    cases hname
    exact h.1
  | classDecl declared parent methods =>
    cases hname
    cases parent with
    | none => exact h.1
    | some parent => exact h.1
  | _ => cases hname

namespace Grammar

def Suffix.Named : Suffix → Prop
  | .call _ arguments => Expr.AllNamed arguments
  | .property _ => True

/-- What a nonterminal is read as is named as said. -/
def Nonterminal.Named : (n : Nonterminal) → n.Tree → Prop
  | .declarations, v => Stmt.AllNamed v
  | .declaration, v => Stmt.Named v
  | .methods, v => Routine.AllNamed v
  | .method, v => Routine.Named v
  | .varDecl, v => Stmt.Named v
  | .statement, v => Stmt.Named v
  | .exprStmt, v => Stmt.Named v
  | .loopStart, v => Stmt.AllNamed v.toList
  | .block, v => Stmt.AllNamed v
  | .parameterList, v => ∀ p ∈ v, p.NotReceiver
  | .names, v => ∀ p ∈ v, p.NotReceiver
  | .expression, v => Expr.Named v
  | .expressions, v => Expr.AllNamed v
  | .optionalExpression, v => Expr.AllNamed v.toList
  | .ternary, v => Expr.Named v
  | .assignment, v => Expr.Named v
  | .tier _, v => Expr.Named v
  | .operations _, v => ∀ x ∈ v, Expr.Named x.2
  | .call, v => Expr.Named v
  | .suffixes, v => ∀ x ∈ v, Suffix.Named x
  | .primary, v => Expr.Named v
  | .items, _ => True

theorem Chain.named {t : Tier} {symbols : List Symbol} {o : Tier} {combine : Expr → Token → Expr → Expr}
    (h : Chain t symbols o combine) (operations : List (Token × Expr)) (first : Expr) (hfirst : first.Named)
    (hall : ∀ x ∈ operations, Expr.Named x.2) :
    (operations.foldl (fun left x => combine left x.1 x.2) first).Named := by
  have step : ∀ left operator right, left.Named → right.Named → (combine left operator right).Named := by
    cases h <;> exact fun _ _ _ hl hr => ⟨hl, hr⟩
  induction operations generalizing first with
  | nil => exact hfirst
  | cons x rest ih =>
    exact ih _ (step _ _ _ hfirst (hall x (by simp))) fun y hy => hall y (List.mem_cons_of_mem _ hy)

theorem named_suffixes (suffixes : List Suffix) (callee : Expr) (hcallee : callee.Named)
    (hall : ∀ x ∈ suffixes, Suffix.Named x) : (suffixes.foldl Suffix.apply callee).Named := by
  induction suffixes generalizing callee with
  | nil => exact hcallee
  | cons s rest ih =>
    refine ih _ ?_ fun y hy => hall y (List.mem_cons_of_mem _ hy)
    have hs := hall s (by simp)
    cases s with
    | call paren arguments => exact ⟨hcallee, hs⟩
    | property name => exact hcallee

theorem named_loopTree {initializer : Option Stmt} {condition : Option Expr} {increment : Option Expr} {body : Stmt}
    (hinitializer : Stmt.AllNamed initializer.toList) (hcondition : Expr.AllNamed condition.toList)
    (hincrement : Expr.AllNamed increment.toList) (hbody : body.Named) :
    (loopTree initializer (condition.getD (.literal (.bool true))) increment body).Named := by
  cases initializer <;> cases condition <;> cases increment <;>
    simp_all [loopTree, Stmt.Named, Stmt.AllNamed, Expr.Named, Expr.AllNamed]

/-- All tokens ahead are spelled as their kinds ask for. -/
def Point.Spelled (p : Point) : Prop := ∀ t ∈ p.ahead, t.Spelled

namespace Point.Spelled

variable {t : Token} {tokens : List Token} {i : NodeId} (h : Point.Spelled ⟨t :: tokens, i⟩)
include h

theorem front : t.Spelled := h t List.mem_cons_self

theorem skip : Point.Spelled ⟨tokens, i⟩ := fun x hx => h x (List.mem_cons_of_mem t hx)

end Point.Spelled

theorem Derives.spelled {n : Nonterminal} {p q : Point} {v : n.Tree} (h : Derives n p v q) (hp : p.Spelled) :
    q.Spelled := by
  obtain ⟨taken, htaken, -⟩ := h.lies
  exact fun t ht => hp t (htaken ▸ List.mem_append_right taken ht)

/-- A phrase of tokens that are spelled as their kinds ask for is named as said. -/
theorem Derives.named {n : Nonterminal} {p q : Point} {v : n.Tree} (h : Derives n p v q) (hp : p.Spelled) :
    n.Named v := by
  induction h with
  | moreDeclarations h₁ _ ih₁ ih₂ => exact ⟨ih₁ hp, ih₂ (h₁.spelled hp)⟩
  | baseClass _ hname _ _ _ ih => exact ⟨hp.skip.front.notReceiver hname, ih hp.skip.skip.skip⟩
  | subclass _ hname _ _ _ _ _ ih =>
    exact ⟨hp.skip.front.notReceiver hname, trivial, ih hp.skip.skip.skip.skip.skip⟩
  | function _ hname h₁ _ ih₁ ih₂ =>
    exact ⟨hp.skip.front.notReceiver hname, ih₁ hp.skip.skip, ih₂ (h₁.spelled hp.skip.skip)⟩
  | «variable» _ ih => exact ih hp
  | plain _ ih => exact ih hp
  | moreMethods h₁ _ ih₁ ih₂ => exact ⟨ih₁ hp, ih₂ (h₁.spelled hp)⟩
  | bareMethod _ _ ih => exact ⟨nofun, ih hp.skip⟩
  | method _ h₁ _ ih₁ ih₂ => exact ⟨ih₁ hp.skip, ih₂ (h₁.spelled hp.skip)⟩
  | noParameters _ _ => exact nofun
  | parameters _ _ _ _ ih => exact ih hp.skip
  | lastName hname => exact List.forall_mem_singleton.mpr (hp.front.notReceiver hname)
  | moreNames hname _ _ ih => exact List.forall_mem_cons.mpr ⟨hp.front.notReceiver hname, ih hp.skip.skip⟩
  | bareVariable _ hname _ => exact hp.skip.front.notReceiver hname
  | initializedVariable _ hname _ _ _ ih => exact ⟨hp.skip.front.notReceiver hname, ih hp.skip.skip.skip⟩
  | exprStmt _ _ ih => exact ih hp
  | expressionStatement _ ih => exact ih hp
  | print _ _ _ ih => exact ih hp.skip
  | loopVariable _ ih => exact ⟨ih hp, trivial⟩
  | loopExpression _ ih => exact ⟨ih hp, trivial⟩
  | loop _ _ h₁ h₂ _ h₃ _ _ ih₁ ih₂ ih₃ ih₄ =>
    have hcondition := h₁.spelled hp.skip.skip
    have hincrement := (h₂.spelled hcondition).skip
    have hbody := (h₃.spelled hincrement).skip
    rw [← loopTree_eq_elim]
    exact named_loopTree (ih₁ hp.skip.skip) (ih₂ hcondition) (ih₃ hincrement) (ih₄ hbody)
  | whileLoop _ _ h₁ _ _ ih₁ ih₂ => exact ⟨ih₁ hp.skip.skip, ih₂ (h₁.spelled hp.skip.skip).skip⟩
  | ifOnly _ _ h₁ _ _ _ ih₁ ih₂ => exact ⟨ih₁ hp.skip.skip, ih₂ (h₁.spelled hp.skip.skip).skip⟩
  | ifElse _ _ h₁ _ h₂ _ _ ih₁ ih₂ ih₃ =>
    have hyes := (h₁.spelled hp.skip.skip).skip
    exact ⟨ih₁ hp.skip.skip, ih₂ hyes, ih₃ (h₂.spelled hyes).skip⟩
  | @returnValue _ _ _ _ _ _ value _ _ _ ih =>
    cases value with
    | none => trivial
    | some e => exact (ih hp.skip).1
  | inner _ ih => exact ih hp
  | block _ _ _ ih => exact ih hp.skip
  | lambda _ h₁ _ ih₁ ih₂ => exact ⟨ih₁ hp.skip, ih₂ (h₁.spelled hp.skip)⟩
  | ternary _ ih => exact ih hp
  | lastExpression _ ih => exact ⟨ih hp, trivial⟩
  | moreExpressions h₁ _ _ ih₁ ih₂ => exact ⟨ih₁ hp, ih₂ (h₁.spelled hp).skip⟩
  | someExpression _ ih => exact ⟨ih hp, trivial⟩
  | unconditional _ ih => exact ih hp
  | conditional h₁ _ h₂ _ _ ih₁ ih₂ ih₃ =>
    have hyes := (h₁.spelled hp).skip
    exact ⟨ih₁ hp, ih₂ hyes, ih₃ (h₂.spelled hyes).skip⟩
  | assignName hname _ _ ih => exact ⟨hp.front.notReceiver hname, ih hp.skip.skip⟩
  | assignProperty h₁ _ _ _ _ ih₁ ih₂ => exact ⟨ih₁ hp, ih₂ (h₁.spelled hp).skip.skip.skip⟩
  | unassigned _ ih => exact ih hp
  | chain hchain h₁ _ ih₁ ih₂ => exact hchain.named _ _ (ih₁ hp) (ih₂ (h₁.spelled hp))
  | noOperation => exact nofun
  | moreOperations _ _ h₁ _ ih₁ ih₂ => exact List.forall_mem_cons.mpr ⟨ih₁ hp.skip, ih₂ (h₁.spelled hp.skip)⟩
  | unary _ _ ih => exact ih hp.skip
  | operand _ ih => exact ih hp
  | call h₁ _ ih₁ ih₂ => exact named_suffixes _ _ (ih₁ hp) (ih₂ (h₁.spelled hp))
  | noSuffix => exact nofun
  | callNone _ _ _ ih => exact List.forall_mem_cons.mpr ⟨trivial, ih hp.skip.skip⟩
  | callSome _ h₁ _ _ _ ih₁ ih₂ => exact List.forall_mem_cons.mpr ⟨ih₁ hp.skip, ih₂ (h₁.spelled hp.skip).skip⟩
  | property _ _ _ ih => exact List.forall_mem_cons.mpr ⟨trivial, ih hp.skip.skip⟩
  | this hthis => exact hp.front.receiver hthis
  | increment hname _ => exact ⟨hp.front.notReceiver hname, trivial, trivial⟩
  | subscript _ _ _ _ ih => exact ih hp.skip.skip
  | grouping _ _ _ ih => exact ih hp.skip
  | _ => trivial

end Grammar

theorem Grammar.Derives.named_source {source : List UInt8} {i j : NodeId} {program : List Stmt}
    (h : Derives .declarations (Point.start i (Token.good (Token.scan source))) program ⟨[], j⟩) :
    Stmt.AllNamed program :=
  h.named fun t ht => Token.spelled_scan t ((List.takeWhile_sublist _).subset ht)

end Treewalk
