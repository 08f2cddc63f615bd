import Treewalk.Proofs.Grammar.Calls
import Treewalk.Proofs.Grammar.Soundness
import Treewalk.Proofs.Tree.Parts

/-!
The forms of the trees that are read. Every node of a tree has one of the operators that its kind of node can have, names
its superclass by a variable, and has no more parameters and arguments than allowed: whatever the tokens are, and also in
the statements that are kept when something else is wrong.
-/

namespace Treewalk

namespace Tree

open Operator

/-- The node has an operator of its kind, a variable for a superclass, and no more parameters and arguments than
allowed. -/
def WellFormed : Tree → Prop
  | expr (.unary operator _) => operator.IsOneOf signs
  | expr (.binary _ operator _) => operator.IsOneOf operations
  | expr (.logical _ operator _) => operator.IsOneOf connectives
  | expr (.call _ _ arguments) => arguments.length ≤ Grammar.arityLimit
  | stmt (.classDecl _ (some parent) _) => ∃ id name, parent = .var id name
  | routine r => r.params.length ≤ Grammar.arityLimit
  | _ => True

end Tree

/-- The expression and all in it is well-formed. -/
abbrev Expr.WellFormed (e : Expr) : Prop := (Tree.expr e).Everywhere Tree.WellFormed

/-- The statement and all in it is well-formed. -/
abbrev Stmt.WellFormed (s : Stmt) : Prop := (Tree.stmt s).Everywhere Tree.WellFormed

/-- The routine and all in it is well-formed. -/
abbrev Routine.WellFormed (r : Routine) : Prop := (Tree.routine r).Everywhere Tree.WellFormed

namespace Grammar

open Production Operator

/-! ### The nodes that are built -/

variable {left right condition : Expr} {operator name : Token}

theorem wellFormed_binary (ho : operator.IsOneOf operations) (hleft : left.WellFormed) (hright : right.WellFormed) :
    (Expr.binary left operator right).WellFormed :=
  .of_expr ho (List.forall_mem_cons.mpr ⟨hleft, List.forall_mem_singleton.mpr hright⟩) nofun

theorem wellFormed_logical (ho : operator.IsOneOf connectives) (hleft : left.WellFormed) (hright : right.WellFormed) :
    (Expr.logical left operator right).WellFormed :=
  .of_expr ho (List.forall_mem_cons.mpr ⟨hleft, List.forall_mem_singleton.mpr hright⟩) nofun

theorem wellFormed_combine {level : Level} (ho : operator.IsOneOf level.operators) (hleft : left.WellFormed)
    (hright : right.WellFormed) : (level.combine left operator right).WellFormed := by
  have hamong : ∀ symbols, level.operators ⊆ symbols → operator.IsOneOf symbols := by
    intro symbols hsub
    obtain ⟨s, hs, his⟩ := List.any_eq_true.mp ho
    exact Token.isOneOf_of_is his (hsub hs)
  cases level with
  | or => exact wellFormed_logical (hamong _ (by decide)) hleft hright
  | and => exact wellFormed_logical (hamong _ (by decide)) hleft hright
  | equality => exact wellFormed_binary (hamong _ (by decide)) hleft hright
  | comparison => exact wellFormed_binary (hamong _ (by decide)) hleft hright
  | sum => exact wellFormed_binary (hamong _ (by decide)) hleft hright
  | product => exact wellFormed_binary (hamong _ (by decide)) hleft hright

theorem wellFormed_call {callee : Expr} {paren : Token} {arguments : List Expr} (hcallee : callee.WellFormed)
    (harguments : ∀ e ∈ arguments, e.WellFormed) (hlength : arguments.length ≤ arityLimit) :
    (Expr.call callee paren arguments).WellFormed :=
  .of_expr hlength (List.forall_mem_cons.mpr ⟨hcallee, harguments⟩) nofun

theorem wellFormed_expression {e : Expr} (h : e.WellFormed) : (Stmt.expression e).WellFormed :=
  .of_stmt trivial (List.forall_mem_singleton.mpr h) nofun nofun nofun

theorem wellFormed_block {body : List Stmt} (h : ∀ s ∈ body, s.WellFormed) : (Stmt.block body).WellFormed :=
  .of_stmt trivial nofun nofun h nofun

theorem wellFormed_ifElse {yes : Stmt} {no : Option Stmt} (hcondition : condition.WellFormed) (hyes : yes.WellFormed)
    (hno : ∀ s ∈ no, s.WellFormed) : (Stmt.ifElse condition yes no).WellFormed := by
  have hbranches : ∀ s ∈ yes :: no.toList, s.WellFormed :=
    List.forall_mem_cons.mpr ⟨hyes, fun s hs => hno s (Option.mem_toList.mp hs)⟩
  exact .of_stmt trivial (List.forall_mem_singleton.mpr hcondition) hbranches nofun nofun

theorem wellFormed_whileLoop {body : Stmt} (hcondition : condition.WellFormed) (hbody : body.WellFormed) :
    (Stmt.whileLoop condition body).WellFormed :=
  .of_stmt trivial (List.forall_mem_singleton.mpr hcondition) (List.forall_mem_singleton.mpr hbody) nofun nofun

theorem wellFormed_literal (value : Literal) : (Expr.literal value).WellFormed :=
  .of_expr trivial nofun nofun

theorem wellFormed_var (id : NodeId) (name : Token) : (Expr.var id name).WellFormed :=
  .of_expr trivial nofun nofun

theorem wellFormed_loopTree {initializer : Option Stmt} {increment : Option Expr} {body : Stmt}
    (hinitializer : ∀ s ∈ initializer, s.WellFormed) (hcondition : condition.WellFormed)
    (hincrement : ∀ e ∈ increment, e.WellFormed) (hbody : body.WellFormed) :
    (loopTree initializer condition increment body).WellFormed := by
  have hround : (increment.elim body fun e => Stmt.block [body, .expression e]).WellFormed := by
    cases increment with
    | none => exact hbody
    | some e => exact wellFormed_block (by simp [hbody, wellFormed_expression (hincrement e rfl)])
  rw [loopTree_eq_elim]
  cases initializer with
  | none => exact wellFormed_whileLoop hcondition hround
  | some s =>
    refine wellFormed_block (List.forall_mem_cons.mpr ⟨hinitializer s rfl, List.forall_mem_singleton.mpr ?_⟩)
    exact wellFormed_whileLoop hcondition hround

theorem wellFormed_varDecl {initializer : Option Expr} (h : ∀ e ∈ initializer, e.WellFormed) :
    (Stmt.varDecl name initializer).WellFormed :=
  .of_stmt trivial (fun e he => h e (Option.mem_toList.mp he)) nofun nofun nofun

theorem wellFormed_classDecl {parent : Option Expr} {methods : List Routine}
    (hparent : ∀ e ∈ parent, ∃ id name, e = .var id name) (hmethods : ∀ r ∈ methods, r.WellFormed) :
    (Stmt.classDecl name parent methods).WellFormed := by
  cases parent with
  | none => exact .of_stmt trivial nofun nofun nofun hmethods
  | some parent =>
    obtain ⟨id, token, rfl⟩ := hparent parent rfl
    exact .of_stmt ⟨id, token, rfl⟩ (List.forall_mem_singleton.mpr (wellFormed_var id token)) nofun nofun hmethods

theorem wellFormed_routine {params : List Token} {body : List Stmt} (hparams : params.length ≤ arityLimit)
    (hbody : ∀ s ∈ body, s.WellFormed) : Routine.WellFormed ⟨name, params, body⟩ :=
  .of_routine hparams hbody

/-! ### Productions -/

/-- Whatever the production gives satisfies `V`. -/
def Builds {α : Type} (V : α → Prop) (p : Production α) : Prop :=
  ∀ c a d, p c = .ok a d → V a

namespace Builds

variable {α β : Type} {V : α → Prop} {W : β → Prop} {p : Production α} {f : α → Production β}

theorem pure {a : α} (h : V a) : Builds V (Pure.pure a) := fun c b d hb => by
  obtain ⟨rfl, -⟩ := pure_eq_ok.mp hb
  exact h

theorem bind (hp : Builds V p) (hf : ∀ a, V a → Builds W (f a)) : Builds W (p >>= f) := fun c b d h => by
  obtain ⟨a, e, ha, hb⟩ := bind_eq_ok.mp h
  exact hf a (hp c a e ha) e b d hb

/-- What stands before tells nothing of the tree. -/
theorem after (hf : ∀ a, Builds W (f a)) : Builds W (p >>= f) := fun c b d h => by
  obtain ⟨a, e, -, hb⟩ := bind_eq_ok.mp h
  exact hf a e b d hb

theorem map {g : α → β} (hp : Builds V p) (h : ∀ a, V a → W (g a)) : Builds W (g <$> p) :=
  hp.bind fun a ha => .pure (h a ha)

theorem fail (fault : ParseFault) : Builds V (Production.fail fault : Production α) := fun _ _ _ h => by cases h

theorem acceptAny (symbols : List Symbol) :
    Builds (fun x => ∀ t ∈ x, t.IsOneOf symbols) (Production.acceptAny symbols) := fun c x d h => by
  rcases acceptIf_eq_ok h with ⟨t, rest, rfl, -, ht, -⟩ | ⟨rfl, -, -⟩
  · rintro _ ⟨⟩
    exact ht
  · nofun

end Builds

/-- What a phrase is read as is well-formed, if what it continues is. -/
def Phrase.WellFormed : (phrase : Phrase) → phrase.Tree → Prop
  | .program => fun (body : List Stmt) => ∀ s ∈ body, s.WellFormed
  | .body => fun (body : List Stmt) => ∀ s ∈ body, s.WellFormed
  | .declaration => fun (read : Option Stmt) => ∀ s ∈ read, s.WellFormed
  | .statement => Stmt.WellFormed
  | .methods => fun (methods : List Routine) => ∀ r ∈ methods, r.WellFormed
  | .parameters count => fun (params : List Token) => count + params.length ≤ arityLimit
  | .expression => Expr.WellFormed
  | .furtherValues => fun (values : List Expr) => ∀ e ∈ values, e.WellFormed
  | .assignment => Expr.WellFormed
  | .operand _ => Expr.WellFormed
  | .operators _ left => fun (e : Expr) => left.WellFormed → e.WellFormed
  | .unary => Expr.WellFormed
  | .suffixes inner => fun (e : Expr) => inner.WellFormed → e.WellFormed
  | .arguments count => fun (values : List Expr) =>
    (∀ e ∈ values, e.WellFormed) ∧ count + values.length ≤ arityLimit
  | .items => fun _ => True

section Productions
variable {rules : Rules} (hr : ∀ phrase, Builds phrase.WellFormed (rules phrase))
include hr

theorem builds_block : Builds (fun body => ∀ s ∈ body, s.WellFormed) (block rules) :=
  (hr .body).bind fun _ hbody => .after fun _ => .pure hbody

theorem builds_parameterList : Builds (fun params => params.length ≤ arityLimit) (parameterList rules) := by
  refine .after fun x => ?_
  have finish : ∀ params : List Token, params.length ≤ arityLimit → Builds (fun params => params.length ≤ arityLimit) (do
      discard (Production.expect .rightParen .parametersEnd)
      return params) := fun _ h => .after fun _ => .pure h
  cases x with
  | true => exact finish [] (Nat.zero_le _)
  | false => exact (hr (.parameters 0)).bind fun params h => finish params (Nat.zero_add params.length ▸ h)

/-- The number of parameters is checked before each of them. -/
theorem builds_parameters (count : Nat) :
    Builds (Phrase.parameters count).WellFormed (parameters rules count) := by
  unfold parameters
  split
  · exact .fail _
  next hcount =>
    refine .after fun name => .after fun x => ?_
    cases x with
    | some _ =>
      refine (hr (.parameters (count + 1))).bind fun (rest : List Token) hrest => .pure ?_
      have hrest : count + 1 + rest.length ≤ arityLimit := hrest
      show count + (name :: rest).length ≤ arityLimit
      rw [List.length_cons]
      omega
    | none => exact .pure (Nat.lt_of_not_le hcount)

theorem builds_routine (kind : RoutineKind) : Builds Routine.WellFormed (routine rules kind) := by
  refine .after fun name => .after fun bare => ?_
  have finish : ∀ params : List Token, params.length ≤ arityLimit → Builds Routine.WellFormed (do
      discard (Production.expect .leftBrace (.routineBody kind))
      let body ← block rules
      return (⟨name, params, body⟩ : Routine)) := fun _ hparams =>
    .after fun _ => (builds_block hr).bind fun _ hbody => .pure (wellFormed_routine hparams hbody)
  dsimp only
  split
  · exact finish [] (Nat.zero_le _)
  · exact .after fun _ => (builds_parameterList hr).bind finish

theorem builds_varDeclaration : Builds Stmt.WellFormed (varDeclaration rules) := by
  refine .after fun name => .after fun x => ?_
  have finish : ∀ initializer : Option Expr, (∀ e ∈ initializer, e.WellFormed) → Builds Stmt.WellFormed (do
      discard (Production.expect .semicolon .variableEnd)
      return Stmt.varDecl name initializer) := fun _ h => .after fun _ => .pure (wellFormed_varDecl h)
  cases x with
  | some _ => exact (hr .expression).bind fun value hvalue => finish (some value) (by rintro _ ⟨⟩; exact hvalue)
  | none => exact finish none nofun

theorem builds_expressionStatement : Builds Stmt.WellFormed (expressionStatement rules) :=
  (hr .expression).bind fun _ hvalue => .after fun _ => .pure (wellFormed_expression hvalue)

theorem builds_loopInitializer : Builds (fun s => ∀ x ∈ s, x.WellFormed) (loopInitializer rules) := by
  refine .after fun x => ?_
  split
  · exact .pure nofun
  refine .after fun y => ?_
  split
  · exact (builds_varDeclaration hr).map fun s hs => by rintro _ ⟨⟩; exact hs
  · exact (builds_expressionStatement hr).map fun s hs => by rintro _ ⟨⟩; exact hs

theorem builds_expressionUnless (s : Symbol) : Builds (fun e => ∀ x ∈ e, x.WellFormed) (expressionUnless rules s) := by
  refine .after fun x => ?_
  split
  · exact .pure nofun
  · exact (hr .expression).bind fun value hvalue => .pure (by rintro _ ⟨⟩; exact hvalue)

theorem builds_forStatement : Builds Stmt.WellFormed (forStatement rules) := by
  refine .after fun _ => (builds_loopInitializer hr).bind fun initializer hinitializer =>
    (builds_expressionUnless hr _).bind fun condition hcondition => .after fun _ =>
      (builds_expressionUnless hr _).bind fun increment hincrement => .after fun _ =>
        (hr .statement).bind fun body hbody => .pure ?_
  refine wellFormed_loopTree hinitializer ?_ hincrement hbody
  cases condition with
  | none => exact wellFormed_literal _
  | some condition => exact hcondition condition rfl

theorem builds_ifStatement : Builds Stmt.WellFormed (ifStatement rules) := by
  refine .after fun _ => (hr .expression).bind fun (condition : Expr) (hcondition : condition.WellFormed) =>
    .after fun _ => (hr .statement).bind fun (yes : Stmt) (hyes : yes.WellFormed) => .after fun x => ?_
  cases x with
  | some _ =>
    exact (hr .statement).bind fun (no : Stmt) (hno : no.WellFormed) =>
      .pure (wellFormed_ifElse hcondition hyes (by rintro _ ⟨⟩; exact hno))
  | none => exact .pure (wellFormed_ifElse hcondition hyes nofun)

theorem builds_whileStatement : Builds Stmt.WellFormed (whileStatement rules) :=
  .after fun _ => (hr .expression).bind fun _ hcondition => .after fun _ => (hr .statement).bind fun _ hbody =>
    .pure (wellFormed_whileLoop hcondition hbody)

theorem builds_returnStatement (keyword : Token) : Builds Stmt.WellFormed (returnStatement rules keyword) :=
  (builds_expressionUnless hr _).bind fun _ hvalue => .after fun _ => .pure <|
    .of_stmt trivial (fun e he => hvalue e (Option.mem_toList.mp he)) nofun nofun nofun

theorem builds_printStatement (keyword : Token) : Builds Stmt.WellFormed (printStatement rules keyword) :=
  (hr .expression).bind fun _ hfirst => (hr .furtherValues).bind fun _ hrest => .after fun _ => .pure <|
    .of_stmt trivial (List.forall_mem_cons.mpr ⟨hfirst, hrest⟩) nofun nofun nofun

omit hr in
theorem builds_breakStatement (keyword : Token) : Builds Stmt.WellFormed (breakStatement keyword) :=
  .after fun _ => .pure (.of_stmt trivial nofun nofun nofun nofun)

theorem builds_statement : Builds Stmt.WellFormed (statement rules) := by
  refine .after fun x => ?_
  split
  · exact builds_forStatement hr
  refine .after fun x => ?_
  split
  · exact builds_ifStatement hr
  refine .after fun x => ?_
  split
  · exact builds_whileStatement hr
  refine .after fun x => ?_
  split
  · exact builds_breakStatement _
  refine .after fun x => ?_
  split
  · exact builds_returnStatement hr _
  refine .after fun x => ?_
  split
  · exact (builds_block hr).map fun _ => wellFormed_block
  refine .after fun x => ?_
  split
  · exact builds_printStatement hr _
  · exact builds_expressionStatement hr

theorem builds_methods : Builds Phrase.methods.WellFormed (methods rules) := by
  refine .after fun x => ?_
  split
  · exact .pure nofun
  · exact (builds_routine hr _).bind fun _ hfirst => (hr .methods).bind fun _ hrest =>
      .pure (List.forall_mem_cons.mpr ⟨hfirst, hrest⟩)

/-- Only a name is read as a superclass. -/
theorem builds_classDeclaration : Builds Stmt.WellFormed (classDeclaration rules) := by
  refine .after fun name => .after fun x => ?_
  have finish : ∀ parent : Option Expr, (∀ e ∈ parent, ∃ id name, e = .var id name) → Builds Stmt.WellFormed (do
      discard (Production.expect .leftBrace .classBody)
      let methods : List Routine ← rules .methods
      discard (Production.expect .rightBrace .classEnd)
      return Stmt.classDecl name parent methods) := fun _ hparent =>
    .after fun _ => (hr .methods).bind fun _ hmethods => .after fun _ => .pure (wellFormed_classDecl hparent hmethods)
  cases x with
  | some _ =>
    exact .after fun parent => .after fun id => finish (some (.var id parent)) (by rintro _ ⟨⟩; exact ⟨id, parent, rfl⟩)
  | none => exact finish none nofun

theorem builds_declared : Builds Stmt.WellFormed (declared rules) := by
  refine .after fun x => ?_
  split
  · exact builds_classDeclaration hr
  refine .after fun x => ?_
  split
  · exact .after fun _ => (builds_routine hr _).bind fun _ hfunction => .pure <|
      .of_stmt trivial nofun nofun nofun (List.forall_mem_singleton.mpr hfunction)
  refine .after fun x => ?_
  split
  · exact builds_varDeclaration hr
  refine .after fun x => ?_
  split
  · exact .after fun _ => .after fun _ => .pure (.of_stmt trivial nofun nofun nofun nofun)
  · exact hr .statement

theorem builds_declaration : Builds Phrase.declaration.WellFormed (declaration rules) := fun c s d h => by
  unfold declaration at h
  split at h
  · next read _ hread =>
    cases h
    rintro _ ⟨⟩
    exact builds_declared hr c read d hread
  · cases h
    nofun
  · cases h

omit hr in
theorem wellFormed_declarations {first : Option Stmt} {rest : List Stmt} (hfirst : ∀ s ∈ first, s.WellFormed)
    (hrest : ∀ s ∈ rest, s.WellFormed) : ∀ s ∈ first.toList ++ rest, s.WellFormed := fun s hs =>
  (List.mem_append.mp hs).elim (fun h => hfirst s (Option.mem_toList.mp h)) (hrest s)

theorem builds_body : Builds Phrase.body.WellFormed (body rules) := by
  refine .after fun x => ?_
  split
  · exact .pure nofun
  · exact (hr .declaration).bind fun _ hfirst => (hr .body).bind fun _ hrest =>
      .pure (wellFormed_declarations hfirst hrest)

theorem builds_program : Builds Phrase.program.WellFormed (program rules) := by
  refine .after fun x => ?_
  split
  · exact .pure nofun
  · exact (hr .declaration).bind fun _ hfirst => (hr .program).bind fun _ hrest =>
      .pure (wellFormed_declarations hfirst hrest)

theorem builds_furtherValues : Builds Phrase.furtherValues.WellFormed (furtherValues rules) := by
  refine .after fun x => ?_
  cases x with
  | some _ =>
    exact (hr .expression).bind fun _ hfirst => (hr .furtherValues).bind fun _ hrest =>
      .pure (List.forall_mem_cons.mpr ⟨hfirst, hrest⟩)
  | none => exact .pure nofun

theorem builds_lambda (keyword : Token) : Builds Expr.WellFormed (lambda rules keyword) :=
  .after fun _ => (builds_parameterList hr).bind fun _ hparams => .after fun _ =>
    (builds_block hr).bind fun _ hbody => .pure <|
      .of_expr trivial nofun (List.forall_mem_singleton.mpr (wellFormed_routine hparams hbody))

theorem builds_expression : Builds Expr.WellFormed (expression rules) := by
  refine .after fun x => ?_
  cases x with
  | some keyword => exact builds_lambda hr keyword
  | none =>
    refine (hr .assignment).bind fun (condition : Expr) (hcondition : condition.WellFormed) => .after fun y => ?_
    cases y with
    | some _ =>
      refine (hr (.operand .equality)).bind fun (yes : Expr) (hyes : yes.WellFormed) => .after fun _ =>
        (hr (.operand .equality)).bind fun (no : Expr) (hno : no.WellFormed) => .pure (.of_expr trivial ?_ nofun)
      exact List.forall_mem_cons.mpr ⟨hcondition, List.forall_mem_cons.mpr ⟨hyes, List.forall_mem_singleton.mpr hno⟩⟩
    | none => exact .pure hcondition

theorem builds_assignment : Builds Expr.WellFormed (assignment rules) := by
  refine (hr (.operand .or)).bind fun (target : Expr) (htarget : target.WellFormed) => .after fun x => ?_
  cases x with
  | some _ =>
    refine (hr .assignment).bind fun (value : Expr) (hvalue : value.WellFormed) => ?_
    cases target with
    | var id name =>
      exact .after fun _ => .pure (.of_expr trivial (List.forall_mem_singleton.mpr hvalue) nofun)
    | get object name =>
      have hobject : object.WellFormed := htarget.operand (List.mem_singleton.mpr rfl)
      have hparts := List.forall_mem_cons.mpr ⟨hobject, List.forall_mem_singleton.mpr hvalue⟩
      exact .pure (.of_expr trivial hparts nofun)
    | _ => exact .after fun _ => .pure htarget
  | none => exact .pure htarget

theorem builds_tighter (level : Level) : Builds Expr.WellFormed (tighter rules level) := by
  unfold tighter
  split
  · exact hr (.operand _)
  · exact hr .unary

theorem builds_operand (level : Level) : Builds Expr.WellFormed (operand rules level) :=
  (builds_tighter hr level).bind fun left hleft c e d h => hr (.operators level left) c e d h hleft

theorem builds_operators (level : Level) (left : Expr) :
    Builds (Phrase.operators level left).WellFormed (operators rules level left) := by
  refine (Builds.acceptAny _).bind fun x hx => ?_
  cases x with
  | some operator =>
    refine (builds_tighter hr level).bind fun right hright c e d h hleft => ?_
    have hcombined := wellFormed_combine (hx operator rfl) hleft hright
    exact hr (.operators level (level.combine left operator right)) c e d h hcombined
  | none => exact .pure id

omit hr in
theorem builds_arrayLiteral (bracket : Token) : Builds Expr.WellFormed (arrayLiteral rules bracket) := by
  refine .after fun x => ?_
  have finish : ∀ values : List Literal, Builds Expr.WellFormed (do
      discard (Production.expect .rightBracket .arrayEnd)
      return Expr.array bracket values) := fun _ =>
    .after fun _ => .pure (.of_expr trivial nofun nofun)
  cases x with
  | true => exact finish []
  | false => exact .after finish

omit hr in
/-- An increment stands for a sum or a difference, by the first of its two signs. -/
theorem wellFormed_increment {c d : Cursor} {name : Token} {e : Expr} (hc : incrementAhead c = true)
    (h : increment name c = .ok e d) : e.WellFormed := by
  obtain ⟨first, second, rest, hahead, hpair⟩ := incrementAhead_iff.mp hc
  obtain ⟨operator, mid, hoperator, h⟩ := bind_eq_ok.mp h
  obtain rfl : first = operator := by
    have hlast : c.advance.last = operator := (Parsed.ok.inj hoperator).1
    rwa [Cursor.advance_of_ahead hahead] at hlast
  have hsign : first.IsOneOf operations :=
    hpair.1.elim (fun h => Token.isOneOf_of_is h.1 (by decide)) fun h => Token.isOneOf_of_is h.1 (by decide)
  have hrest : Builds Expr.WellFormed (do
      discard advance
      let readId ← fresh
      let id ← fresh
      return .assign id name (.binary (.var readId name) first (.literal (.number 1)))) := by
    refine .after fun _ => .after fun readId => .after fun id =>
      .pure (.of_expr trivial (List.forall_mem_singleton.mpr ?_) nofun)
    exact wellFormed_binary hsign (wellFormed_var readId name) (wellFormed_literal (.number 1))
  exact hrest mid e d h

theorem builds_named (name : Token) : Builds Expr.WellFormed (named rules name) := by
  intro c e d h
  obtain ⟨x, mid, hx, h⟩ := bind_eq_ok.mp h
  obtain ⟨hlook, rfl⟩ := look_eq_ok.mp hx
  cases x with
  | true => exact wellFormed_increment hlook h
  | false =>
    have hrest : Builds Expr.WellFormed (do
        if (← accept .leftBracket).isSome then
          let index : Expr ← rules .expression
          discard (expect .rightBracket .indexEnd)
          let id ← fresh
          return .subscript id name index
        else
          let id ← fresh
          return .var id name) := by
      refine .after fun y => ?_
      split
      · exact (hr .expression).bind fun (index : Expr) (hindex : index.WellFormed) => .after fun _ => .after fun id =>
          .pure (.of_expr trivial (List.forall_mem_singleton.mpr hindex) nofun)
      · exact .after fun id => .pure (wellFormed_var id name)
    exact hrest c e d h

theorem builds_primary : Builds Expr.WellFormed (primary rules) := by
  refine .after fun x => ?_
  split
  · exact builds_arrayLiteral _
  refine .after fun x => ?_
  split
  · exact .after fun _ => .pure (wellFormed_literal _)
  refine .after fun x => ?_
  split
  · exact .after fun _ => .pure (.of_expr trivial nofun nofun)
  refine .after fun x => ?_
  split
  · exact .after fun _ => .pure (.of_expr trivial nofun nofun)
  refine .after fun x => ?_
  split
  · exact builds_named hr _
  refine .after fun x => ?_
  split
  · exact (hr .expression).bind fun (inner : Expr) (hinner : inner.WellFormed) => .after fun _ =>
      .pure (.of_expr trivial (List.forall_mem_singleton.mpr hinner) nofun)
  · exact .fail _

theorem builds_unary : Builds Expr.WellFormed (unary rules) := by
  refine (Builds.acceptAny _).bind fun x hx => ?_
  cases x with
  | some operator =>
    exact (hr .unary).bind fun (right : Expr) (hright : right.WellFormed) =>
      .pure (.of_expr (hx operator rfl) (List.forall_mem_singleton.mpr hright) nofun)
  | none => exact (builds_primary hr).bind fun inner hinner c e d h => hr (.suffixes inner) c e d h hinner

/-- The number of arguments is checked before each of them. -/
theorem builds_arguments (count : Nat) : Builds (Phrase.arguments count).WellFormed (arguments rules count) := by
  unfold arguments
  split
  · exact .fail _
  next hcount =>
    refine (hr .expression).bind fun (first : Expr) hfirst => .after fun x => ?_
    cases x with
    | some _ =>
      refine (hr (.arguments (count + 1))).bind fun (rest : List Expr) hrest => .pure ?_
      refine ⟨List.forall_mem_cons.mpr ⟨hfirst, hrest.1⟩, ?_⟩
      have hlength : count + 1 + rest.length ≤ arityLimit := hrest.2
      rw [List.length_cons]
      omega
    | none => exact .pure ⟨List.forall_mem_singleton.mpr hfirst, Nat.lt_of_not_le hcount⟩

theorem builds_suffixes (inner : Expr) : Builds (Phrase.suffixes inner).WellFormed (suffixes rules inner) := by
  refine .after fun x => ?_
  split
  · refine .after fun y => ?_
    have finish : ∀ arguments : List Expr, (∀ e ∈ arguments, e.WellFormed) → arguments.length ≤ arityLimit →
        Builds (Phrase.suffixes inner).WellFormed (do
          let paren ← Production.expect .rightParen .argumentsEnd
          rules (.suffixes (.call inner paren arguments))) := fun arguments harguments hlength =>
      .after fun paren c e d h hinner =>
        hr (.suffixes (.call inner paren arguments)) c e d h (wellFormed_call hinner harguments hlength)
    cases y with
    | true => exact finish [] nofun (Nat.zero_le _)
    | false => exact (hr (.arguments 0)).bind fun arguments h => finish arguments h.1 (Nat.zero_add arguments.length ▸ h.2)
  · refine .after fun y => ?_
    split
    · exact .after fun name c e d h hinner =>
        hr (.suffixes (.get inner name)) c e d h (.of_expr trivial (List.forall_mem_singleton.mpr hinner) nofun)
    · exact .pure id

theorem builds_rulesOver : ∀ phrase : Phrase, Builds phrase.WellFormed (rulesOver rules phrase)
  | .program => builds_program hr
  | .body => builds_body hr
  | .declaration => builds_declaration hr
  | .statement => builds_statement hr
  | .methods => builds_methods hr
  | .parameters count => builds_parameters hr count
  | .expression => builds_expression hr
  | .furtherValues => builds_furtherValues hr
  | .assignment => builds_assignment hr
  | .operand level => builds_operand hr level
  | .operators level left => builds_operators hr level left
  | .unary => builds_unary hr
  | .suffixes inner => builds_suffixes hr inner
  | .arguments count => builds_arguments hr count
  | .items => fun _ _ _ _ => trivial

end Productions

theorem builds_produce (depth : Nat) (phrase : Phrase) : Builds phrase.WellFormed (produce depth phrase) := by
  induction depth generalizing phrase with
  | zero => exact fun _ _ _ h => by cases h
  | succ depth ih => exact builds_rulesOver ih phrase

/-- Every statement that is kept is well-formed, also if something is wrong with others. -/
theorem wellFormed_parse (nextId : NodeId) (tokens : List Token) :
    ∀ s ∈ (parse nextId tokens).statements, s.WellFormed := by
  obtain ⟨statements, last, hproduce, hparse, -⟩ := produce_start nextId tokens
  rw [hparse]
  exact builds_produce _ .program _ _ _ (hproduce _ (Nat.le_refl _))

end Grammar

end Treewalk
