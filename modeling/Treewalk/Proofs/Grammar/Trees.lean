import Treewalk.Proofs.Grammar.Acceptance
import Treewalk.Tree.Reference

/-!
What the trees of the grammar have in common. Their references carry identities of their own, taken from between the
identities at both ends. A branch and the body of a loop are no declarations, so that a name is never declared on one
path only, and a superclass is a variable.
-/

namespace Treewalk

/-- The name that a statement declares in the scope around it. -/
def Stmt.declared? : Stmt → Option Token
  | .varDecl name _ => some name
  | .function routine => some routine.name
  | .classDecl name _ _ => some name
  | _ => none

mutual

/-- No branch and no body of a loop within the expression declares a name, and each superclass is a variable. -/
def Expr.Shaped : Expr → Prop
  | .literal _ => True
  | .array _ _ => True
  | .unary _ right => right.Shaped
  | .binary left _ right => left.Shaped ∧ right.Shaped
  | .logical left _ right => left.Shaped ∧ right.Shaped
  | .grouping inner => inner.Shaped
  | .var _ _ => True
  | .global _ => True
  | .assign _ _ value => value.Shaped
  | .ternary condition _ yes no => condition.Shaped ∧ yes.Shaped ∧ no.Shaped
  | .call callee _ arguments => callee.Shaped ∧ Expr.AllShaped arguments
  | .lambda routine => routine.Shaped
  | .get object _ => object.Shaped
  | .set object _ value => object.Shaped ∧ value.Shaped
  | .this _ _ => True
  | .subscript _ _ index => index.Shaped

/-- All expressions are shaped. -/
def Expr.AllShaped : List Expr → Prop
  | [] => True
  | e :: rest => e.Shaped ∧ Expr.AllShaped rest

/-- No branch and no body of a loop within the statement declares a name, and each superclass is a variable. -/
def Stmt.Shaped : Stmt → Prop
  | .expression value => value.Shaped
  | .print _ values => Expr.AllShaped values
  | .varDecl _ none => True
  | .varDecl _ (some value) => value.Shaped
  | .block body => Stmt.AllShaped body
  | .ifElse condition yes none => condition.Shaped ∧ yes.declared? = none ∧ yes.Shaped
  | .ifElse condition yes (some no) =>
    condition.Shaped ∧ (yes.declared? = none ∧ yes.Shaped) ∧ no.declared? = none ∧ no.Shaped
  | .whileLoop condition body => condition.Shaped ∧ body.declared? = none ∧ body.Shaped
  | .function routine => routine.Shaped
  | .breakLoop _ => True
  | .returnValue _ none => True
  | .returnValue _ (some value) => value.Shaped
  | .classDecl _ none methods => Routine.AllShaped methods
  | .classDecl _ (some parent) methods => (∃ id token, parent = .var id token) ∧ Routine.AllShaped methods
  | .useLibrary _ _ => True

/-- All statements are shaped. -/
def Stmt.AllShaped : List Stmt → Prop
  | [] => True
  | s :: rest => s.Shaped ∧ Stmt.AllShaped rest

/-- The body of the routine is shaped. -/
def Routine.Shaped : Routine → Prop
  | ⟨_, _, body⟩ => Stmt.AllShaped body

/-- All routines are shaped. -/
def Routine.AllShaped : List Routine → Prop
  | [] => True
  | r :: rest => r.Shaped ∧ Routine.AllShaped rest

end

/-! ### Identities -/

/-- The references carry different identities, from the first one up to below the second one. -/
structure Spans (i j : Nat) (references : List Reference) : Prop where
  le : i ≤ j
  nodup : (references.map (·.id)).Nodup
  within : ∀ n : Nat, n ∈ references.map (·.id) → i ≤ n ∧ n < j

namespace Spans

variable {i j k : Nat} {a b : List Reference}

theorem nil (h : i ≤ j) : Spans i j [] := ⟨h, List.nodup_nil, fun _ hn => (by cases hn)⟩

theorem append (ha : Spans i j a) (hb : Spans j k b) : Spans i k (a ++ b) := by
  have hij := ha.le
  have hjk := hb.le
  refine ⟨by omega, ?_, fun n hn => ?_⟩
  · rw [List.map_append, List.nodup_append]
    refine ⟨ha.nodup, hb.nodup, fun m hm n hn heq => ?_⟩
    have := ha.within m hm
    have := hb.within m (heq ▸ hn)
    omega
  · rw [List.map_append] at hn
    rcases List.mem_append.mp hn with hn | hn
    · have := ha.within n hn
      omega
    · have := hb.within n hn
      omega

theorem perm (ha : Spans i j a) (h : a.Perm b) : Spans i j b :=
  ⟨ha.le, (h.map _).nodup_iff.mp ha.nodup, fun n hn => ha.within n ((h.map _).mem_iff.mpr hn)⟩

theorem widen (ha : Spans i j a) {i' j' : Nat} (hi : i' ≤ i) (hj : j ≤ j') : Spans i' j' a :=
  ⟨by have := ha.le; omega, ha.nodup, fun n hn => by have := ha.within n hn; omega⟩

theorem single (kind : ReferenceKind) (token : Token) : Spans i (i + 1) [⟨kind, i, token⟩] :=
  ⟨by omega, by simp, fun n hn => by obtain rfl : n = i := by simpa using hn
                                     omega⟩

/-- A reference that takes its identity last, whatever its place. -/
theorem last (ha : Spans i j a) (kind : ReferenceKind) (token : Token) : Spans i (j + 1) (⟨kind, j, token⟩ :: a) :=
  (ha.append (single kind token)).perm List.perm_append_comm

end Spans

namespace Grammar

/-- The references in a suffix. -/
def Suffix.references : Suffix → List Reference
  | .call _ arguments => Expr.allReferences arguments
  | .property _ => []

/-- The suffix is shaped. -/
def Suffix.Shaped : Suffix → Prop
  | .call _ arguments => Expr.AllShaped arguments
  | .property _ => True

/-- The references in what a nonterminal is read as. -/
def Nonterminal.references : (n : Nonterminal) → n.Tree → List Reference
  | .declarations, v => Stmt.allReferences v
  | .declaration, v => Stmt.references v
  | .methods, v => Routine.allReferences v
  | .method, v => Routine.references v
  | .varDecl, v => Stmt.references v
  | .statement, v => Stmt.references v
  | .exprStmt, v => Stmt.references v
  | .loopStart, v => Stmt.allReferences v.toList
  | .block, v => Stmt.allReferences v
  | .parameterList, _ => []
  | .names, _ => []
  | .expression, v => Expr.references v
  | .expressions, v => Expr.allReferences v
  | .optionalExpression, v => Expr.allReferences v.toList
  | .ternary, v => Expr.references v
  | .assignment, v => Expr.references v
  | .tier _, v => Expr.references v
  | .operations _, v => v.flatMap (Expr.references ·.2)
  | .call, v => Expr.references v
  | .suffixes, v => v.flatMap Suffix.references
  | .primary, v => Expr.references v
  | .items, _ => []

/-- What a nonterminal is read as is shaped; a statement declares nothing besides. -/
def Nonterminal.Shaped : (n : Nonterminal) → n.Tree → Prop
  | .declarations, v => Stmt.AllShaped v
  | .declaration, v => Stmt.Shaped v
  | .methods, v => Routine.AllShaped v
  | .method, v => Routine.Shaped v
  | .varDecl, v => Stmt.Shaped v
  | .statement, v => Stmt.declared? v = none ∧ Stmt.Shaped v
  | .exprStmt, v => Stmt.declared? v = none ∧ Stmt.Shaped v
  | .loopStart, v => Stmt.AllShaped v.toList
  | .block, v => Stmt.AllShaped v
  | .parameterList, _ => True
  | .names, _ => True
  | .expression, v => Expr.Shaped v
  | .expressions, v => Expr.AllShaped v
  | .optionalExpression, v => Expr.AllShaped v.toList
  | .ternary, v => Expr.Shaped v
  | .assignment, v => Expr.Shaped v
  | .tier _, v => Expr.Shaped v
  | .operations _, v => ∀ x ∈ v, Expr.Shaped x.2
  | .call, v => Expr.Shaped v
  | .suffixes, v => ∀ x ∈ v, Suffix.Shaped x
  | .primary, v => Expr.Shaped v
  | .items, _ => True

/-! ### Chains -/

theorem Chain.references {t : Tier} {symbols : List Symbol} {o : Tier} {combine : Expr → Token → Expr → Expr}
    (h : Chain t symbols o combine) (operations : List (Token × Expr)) (first : Expr) :
    (operations.foldl (fun left x => combine left x.1 x.2) first).references =
      first.references ++ operations.flatMap (Expr.references ·.2) := by
  have step : ∀ left operator right, (combine left operator right).references = left.references ++ right.references := by
    cases h <;> exact fun _ _ _ => rfl
  induction operations generalizing first with
  | nil => simp
  | cons x rest ih => simp [ih, step]

theorem Chain.shaped {t : Tier} {symbols : List Symbol} {o : Tier} {combine : Expr → Token → Expr → Expr}
    (h : Chain t symbols o combine) (operations : List (Token × Expr)) (first : Expr) (hfirst : first.Shaped)
    (hall : ∀ x ∈ operations, Expr.Shaped x.2) :
    (operations.foldl (fun left x => combine left x.1 x.2) first).Shaped := by
  have step : ∀ left operator right, left.Shaped → right.Shaped → (combine left operator right).Shaped := by
    cases h <;> exact fun _ _ _ hl hr => ⟨hl, hr⟩
  induction operations generalizing first with
  | nil => exact hfirst
  | cons x rest ih =>
    exact ih _ (step _ _ _ hfirst (hall x (by simp))) fun y hy => hall y (List.mem_cons_of_mem _ hy)

theorem references_suffixes (suffixes : List Suffix) (callee : Expr) :
    (suffixes.foldl Suffix.apply callee).references = callee.references ++ suffixes.flatMap Suffix.references := by
  induction suffixes generalizing callee with
  | nil => simp
  | cons s rest ih => cases s <;> simp [ih, Suffix.apply, Suffix.references, Expr.references]

theorem shaped_suffixes (suffixes : List Suffix) (callee : Expr) (hcallee : callee.Shaped)
    (hall : ∀ x ∈ suffixes, Suffix.Shaped x) : (suffixes.foldl Suffix.apply callee).Shaped := by
  induction suffixes generalizing callee with
  | nil => exact hcallee
  | cons s rest ih =>
    refine ih _ ?_ fun y hy => hall y (List.mem_cons_of_mem _ hy)
    have hs := hall s (by simp)
    cases s with
    | call paren arguments => exact ⟨hcallee, hs⟩
    | property name => exact hcallee

/-- A loop with three clauses has the references of its clauses and of its body; the last clause follows the body. -/
theorem references_loopTree (initializer : Option Stmt) (condition : Option Expr) (increment : Option Expr)
    (body : Stmt) :
    (loopTree initializer (condition.getD (.literal (.bool true))) increment body).references =
      Stmt.allReferences initializer.toList ++ (Expr.allReferences condition.toList ++
        (body.references ++ Expr.allReferences increment.toList)) := by
  cases initializer <;> cases condition <;> cases increment <;>
    simp [loopTree, Stmt.references, Stmt.allReferences, Expr.references, Expr.allReferences]

theorem shaped_loopTree {initializer : Option Stmt} {condition : Option Expr} {increment : Option Expr} {body : Stmt}
    (hinitializer : Stmt.AllShaped initializer.toList) (hcondition : Expr.AllShaped condition.toList)
    (hincrement : Expr.AllShaped increment.toList) (hbody : body.declared? = none ∧ body.Shaped) :
    Nonterminal.Shaped .statement (loopTree initializer (condition.getD (.literal (.bool true))) increment body) := by
  cases initializer <;> cases condition <;> cases increment <;>
    simp_all [loopTree, Nonterminal.Shaped, Stmt.Shaped, Stmt.AllShaped, Stmt.declared?, Expr.Shaped, Expr.AllShaped]

/-! ### Derivations -/

/-- The references of a phrase take their identities between its two points. -/
theorem Derives.spans {n : Nonterminal} {p q : Point} {v : n.Tree} (h : Derives n p v q) :
    Spans p.nextId q.nextId (n.references v) := by
  induction h with
  | moreDeclarations _ _ ih₁ ih₂ => exact ih₁.append ih₂
  | baseClass _ _ _ _ _ ih => exact ih
  | subclass _ _ _ _ _ _ _ ih => exact (Spans.single .var _).append ih
  | function _ _ _ _ ih₁ ih₂ => exact ih₁.append ih₂
  | «variable» _ ih => exact ih
  | plain _ ih => exact ih
  | moreMethods _ _ ih₁ ih₂ => exact ih₁.append ih₂
  | bareMethod _ _ ih => exact ih
  | method _ _ _ ih₁ ih₂ => exact ih₁.append ih₂
  | parameters _ _ _ _ ih => exact ih
  | moreNames _ _ _ ih => exact ih
  | initializedVariable _ _ _ _ _ ih => exact ih
  | exprStmt _ _ ih => exact ih
  | expressionStatement _ ih => exact ih
  | print _ _ _ ih => exact ih
  | loopVariable _ ih => exact ih.append (Spans.nil (Nat.le_refl _))
  | loopExpression _ ih => exact ih.append (Spans.nil (Nat.le_refl _))
  | loop _ _ _ _ _ _ _ _ ih₁ ih₂ ih₃ ih₄ =>
    rw [Nonterminal.references, ← loopTree_eq_elim, references_loopTree]
    exact ih₁.append (ih₂.append ((ih₃.append ih₄).perm List.perm_append_comm))
  | whileLoop _ _ _ _ _ ih₁ ih₂ => exact ih₁.append ih₂
  | ifOnly _ _ _ _ _ _ ih₁ ih₂ => exact ih₁.append ih₂
  | ifElse _ _ _ _ _ _ _ ih₁ ih₂ ih₃ => exact (ih₁.append ih₂).append ih₃
  | returnValue _ _ _ ih =>
    rename_i value _ _ _
    cases value with
    | none => exact ih
    | some e => simpa [Nonterminal.references, Expr.allReferences, Stmt.references] using ih
  | inner _ ih => exact ih
  | block _ _ _ ih => exact ih
  | lambda _ _ _ ih₁ ih₂ => exact ih₁.append ih₂
  | ternary _ ih => exact ih
  | lastExpression _ ih => exact ih.append (Spans.nil (Nat.le_refl _))
  | moreExpressions _ _ _ ih₁ ih₂ => exact ih₁.append ih₂
  | someExpression _ ih => exact ih.append (Spans.nil (Nat.le_refl _))
  | unconditional _ ih => exact ih
  | conditional _ _ _ _ _ ih₁ ih₂ ih₃ => exact (ih₁.append ih₂).append ih₃
  | assignName _ _ _ ih => exact (ih.widen (Nat.le_succ _) (Nat.le_refl _)).last .assign _
  | assignProperty _ _ _ _ _ ih₁ ih₂ => exact ih₁.append ih₂
  | unassigned _ ih => exact ih
  | chain hchain _ _ ih₁ ih₂ =>
    rw [Nonterminal.references, hchain.references]
    exact ih₁.append ih₂
  | moreOperations _ _ _ _ ih₁ ih₂ => exact ih₁.append ih₂
  | unary _ _ ih => exact ih
  | operand _ ih => exact ih
  | call _ _ ih₁ ih₂ =>
    rw [Nonterminal.references, references_suffixes]
    exact ih₁.append ih₂
  | callNone _ _ _ ih => exact ih
  | callSome _ _ _ _ _ ih₁ ih₂ => exact ih₁.append ih₂
  | property _ _ _ ih => exact ih
  | this _ => exact Spans.single .this _
  | array _ _ _ ih => exact Spans.nil ih.le
  | increment _ _ => exact (Spans.single .var _).last .assign _
  | subscript _ _ _ _ ih => exact ih.last .index _
  | name _ _ => exact Spans.single .var _
  | grouping _ _ _ ih => exact ih
  | moreItems _ _ _ ih => exact ih
  | moreNegatives _ _ _ _ ih => exact ih
  | _ => exact Spans.nil (Nat.le_refl _)

theorem Derives.shaped {n : Nonterminal} {p q : Point} {v : n.Tree} (h : Derives n p v q) : n.Shaped v := by
  induction h with
  | moreDeclarations _ _ ih₁ ih₂ => exact ⟨ih₁, ih₂⟩
  | baseClass _ _ _ _ _ ih => exact ih
  | subclass _ _ _ _ _ _ _ ih => exact ⟨⟨_, _, rfl⟩, ih⟩
  | function _ _ _ _ _ ih => exact ih
  | «variable» _ ih => exact ih
  | plain _ ih => exact ih.2
  | moreMethods _ _ ih₁ ih₂ => exact ⟨ih₁, ih₂⟩
  | bareMethod _ _ ih => exact ih
  | method _ _ _ _ ih => exact ih
  | initializedVariable _ _ _ _ _ ih => exact ih
  | exprStmt _ _ ih => exact ⟨rfl, ih⟩
  | expressionStatement _ ih => exact ih
  | print _ _ _ ih => exact ⟨rfl, ih⟩
  | loopVariable _ ih => exact ⟨ih, trivial⟩
  | loopExpression _ ih => exact ⟨ih.2, trivial⟩
  | loop _ _ _ _ _ _ _ _ ih₁ ih₂ ih₃ ih₄ =>
    rw [← loopTree_eq_elim]
    exact shaped_loopTree ih₁ ih₂ ih₃ ih₄
  | whileLoop _ _ _ _ _ ih₁ ih₂ => exact ⟨rfl, ih₁, ih₂⟩
  | ifOnly _ _ _ _ _ _ ih₁ ih₂ => exact ⟨rfl, ih₁, ih₂⟩
  | ifElse _ _ _ _ _ _ _ ih₁ ih₂ ih₃ => exact ⟨rfl, ih₁, ih₂, ih₃⟩
  | breakLoop _ _ => exact ⟨rfl, trivial⟩
  | returnValue _ _ _ ih =>
    rename_i value _ _ _
    cases value with
    | none => exact ⟨rfl, trivial⟩
    | some e => exact ⟨rfl, ih.1⟩
  | inner _ ih => exact ⟨rfl, ih⟩
  | block _ _ _ ih => exact ih
  | lambda _ _ _ _ ih => exact ih
  | ternary _ ih => exact ih
  | lastExpression _ ih => exact ⟨ih, trivial⟩
  | moreExpressions _ _ _ ih₁ ih₂ => exact ⟨ih₁, ih₂⟩
  | someExpression _ ih => exact ⟨ih, trivial⟩
  | unconditional _ ih => exact ih
  | conditional _ _ _ _ _ ih₁ ih₂ ih₃ => exact ⟨ih₁, ih₂, ih₃⟩
  | assignName _ _ _ ih => exact ih
  | assignProperty _ _ _ _ _ ih₁ ih₂ => exact ⟨ih₁, ih₂⟩
  | unassigned _ ih => exact ih
  | chain hchain _ _ ih₁ ih₂ => exact hchain.shaped _ _ ih₁ ih₂
  | moreOperations _ _ _ _ ih₁ ih₂ => exact List.forall_mem_cons.mpr ⟨ih₁, ih₂⟩
  | unary _ _ ih => exact ih
  | operand _ ih => exact ih
  | call _ _ ih₁ ih₂ => exact shaped_suffixes _ _ ih₁ ih₂
  | callNone _ _ _ ih => exact List.forall_mem_cons.mpr ⟨trivial, ih⟩
  | callSome _ _ _ _ _ ih₁ ih₂ => exact List.forall_mem_cons.mpr ⟨ih₁, ih₂⟩
  | property _ _ _ ih => exact List.forall_mem_cons.mpr ⟨trivial, ih⟩
  | increment _ _ => exact ⟨trivial, trivial⟩
  | subscript _ _ _ _ ih => exact ih
  | grouping _ _ _ ih => exact ih
  | noOperation => exact fun x hx => (by cases hx)
  | noSuffix => exact fun x hx => (by cases hx)
  | _ => trivial

end Grammar

end Treewalk
