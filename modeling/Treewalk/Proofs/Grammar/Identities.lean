import Mathlib.Data.List.Perm.Subperm
import Treewalk.Proofs.Grammar.Descent
import Treewalk.Proofs.Grammar.Trees

/-!
The identities that a reading hands out, whether or not anything is wrong with what it reads. A production starts with
references in hand, those of the tree it continues, and ends with the references of the tree it gives; they have
different identities all along, also besides those of any other trees. What a production gives up on the way is not
handed out again, since identities are only ever drawn.
-/

namespace Treewalk

theorem Spans.subperm {i j : Nat} {a b : List Reference} (ha : Spans i j a) (h : b.Subperm a) : Spans i j b := by
  obtain ⟨c, hperm, hsub⟩ := h
  have hc : Spans i j c :=
    ⟨ha.le, (hsub.map _).nodup ha.nodup, fun n hn => ha.within n ((hsub.map _).subset hn)⟩
  exact hc.perm hperm

namespace Grammar

/-- Identities are only ever drawn. -/
instance : Respected fun c d => c.nextId ≤ d.nextId where
  refl _ := Nat.le_refl _
  trans h h' := Nat.le_trans h h'
  pass _ := Nat.le_refl _
  fresh _ := Nat.le_succ _
  report _ _ := Nat.le_refl _

/-- The production draws identities and gives none back. -/
abbrev Draws {α : Type} (p : Production α) : Prop := Keeps (fun c d => c.nextId ≤ d.nextId) p

/-- With the given references in hand, the production ends with those of what it gives in hand, and whatever other
references there are besides, their identities stay different. -/
def Issues {α : Type} (held : List Reference) (p : Production α) (references : α → List Reference) : Prop :=
  ∀ c a d, p c = .ok a d → ∀ i others, Spans i c.nextId (others ++ held) → Spans i d.nextId (others ++ references a)

namespace Issues

variable {α β : Type} {held : List Reference} {p : Production α} {f : α → Production β} {r : α → List Reference}
  {r' : β → List Reference}

/-- Some of what is in hand is in what is given. -/
theorem pure {a : α} (h : (r a).Subperm held) : Issues held (Pure.pure a) r := fun c b d hb i others hspans => by
  obtain ⟨rfl, rfl⟩ := Production.pure_eq_ok.mp hb
  exact hspans.subperm ((List.subperm_append_left others).mpr h)

theorem done {a : α} (h : r a = held) : Issues held (Pure.pure a) r := pure (h ▸ List.Subperm.refl _)

theorem bind (hp : Issues held p r) (hf : ∀ a, Issues (r a) (f a) r') : Issues held (p >>= f) r' :=
  fun c b d h i others hspans => by
    obtain ⟨a, mid, h₁, h₂⟩ := Production.bind_eq_ok.mp h
    exact hf a mid b d h₂ i others (hp c a mid h₁ i others hspans)

/-- A step whose outcome refers to nothing. -/
theorem after (hp : Draws p) (hf : ∀ a, Issues held (f a) r') : Issues held (p >>= f) r' :=
  bind (r := fun _ => held) (fun c a d h _ _ hspans => hspans.widen (Nat.le_refl _) ((hp c d).1 a h)) hf

/-- A tree is read besides what is in hand. -/
theorem also (hp : Issues [] p r) (hf : ∀ a, Issues (held ++ r a) (f a) r') : Issues held (p >>= f) r' := by
  refine bind (r := fun a => held ++ r a) (fun c a d h i others hspans => ?_) hf
  have hp := hp c a d h i (others ++ held)
  rw [List.append_nil, List.append_assoc] at hp
  exact hp hspans

/-- A node is made of what is in hand. -/
theorem fresh {f : NodeId → Production β} (kind : ReferenceKind) (token : Token)
    (hf : ∀ id, Issues (⟨kind, id, token⟩ :: held) (f id) r') : Issues held (Production.fresh >>= f) r' := by
  refine bind (r := fun id => ⟨kind, id, token⟩ :: held) (fun c id d h i others hspans => ?_) hf
  obtain ⟨rfl, rfl⟩ := Production.fresh_eq_ok.mp h
  exact (hspans.last kind token).perm List.perm_middle.symm

theorem map {g : α → β} (hp : Issues held p r) (h : ∀ a, r' (g a) = r a) : Issues held (g <$> p) r' :=
  hp.bind fun a => done (h a)

/-- A production that refers to nothing. -/
theorem nothing (hp : Draws p) (hr : ∀ a, r a = []) : Issues [] p r := fun c a d h _ others hspans => by
  rw [hr, ← List.append_nil others]
  simpa using hspans.widen (Nat.le_refl _) ((hp c d).1 a h)

theorem fail (fault : ParseFault) : Issues held (Production.fail fault : Production α) r := fun _ _ _ h => by cases h

end Issues

/-- The references of the tree that a phrase continues. -/
def Phrase.held : Phrase → List Reference
  | .operators _ left => left.references
  | .suffixes inner => inner.references
  | _ => []

/-- The references in what a phrase is read as. -/
def Phrase.references : (phrase : Phrase) → phrase.Tree → List Reference
  | .program, v => Stmt.allReferences v
  | .body, v => Stmt.allReferences v
  | .declaration, v => Stmt.allReferences v.toList
  | .statement, v => Stmt.references v
  | .methods, v => Routine.allReferences v
  | .parameters _, _ => []
  | .expression, v => Expr.references v
  | .furtherValues, v => Expr.allReferences v
  | .assignment, v => Expr.references v
  | .operand _, v => Expr.references v
  | .operators _ _, v => Expr.references v
  | .unary, v => Expr.references v
  | .suffixes _, v => Expr.references v
  | .arguments _, v => Expr.allReferences v
  | .items, _ => []

theorem references_combine (level : Level) (left : Expr) (operator : Token) (right : Expr) :
    (level.combine left operator right).references = left.references ++ right.references := by
  cases level <;> rfl

theorem references_varDecl (name : Token) (initializer : Option Expr) :
    (Stmt.varDecl name initializer).references = Expr.allReferences initializer.toList := by
  cases initializer <;> simp [Stmt.references, Expr.allReferences]

theorem references_returnValue (keyword : Token) (value : Option Expr) :
    (Stmt.returnValue keyword value).references = Expr.allReferences value.toList := by
  cases value <;> simp [Stmt.references, Expr.allReferences]

theorem references_classDecl (name : Token) (parent : Option Expr) (methods : List Routine) :
    (Stmt.classDecl name parent methods).references =
      Expr.allReferences parent.toList ++ Routine.allReferences methods := by
  cases parent <;> simp [Stmt.references, Expr.allReferences]

theorem allReferences_singleton (e : Expr) : Expr.allReferences [e] = e.references := List.append_nil _

theorem allReferences_append (a b : List Stmt) :
    Stmt.allReferences (a ++ b) = Stmt.allReferences a ++ Stmt.allReferences b := by
  induction a with
  | nil => rfl
  | cons s rest ih => simp [Stmt.allReferences, ih]

section Productions
variable {rules : Rules} (hr : ∀ phrase, Issues phrase.held (rules phrase) phrase.references)
  (hd : ∀ phrase, Draws (rules phrase))
include hr

theorem issues_block : Issues [] (block rules) Stmt.allReferences :=
  (hr .body).also fun _ => .after (Keeps.expect _ _).discard fun _ => .done rfl

include hd in
theorem issues_routine (kind : RoutineKind) : Issues [] (routine rules kind) Routine.references := by
  refine .after (Keeps.expectName _) fun name => .after (Keeps.ahead _) fun bare => ?_
  have finish : ∀ params : List Token, Issues [] (do
      discard (Production.expect .leftBrace (.routineBody kind))
      let body ← block rules
      return (⟨name, params, body⟩ : Routine)) Routine.references := fun _ =>
    .after (Keeps.expect _ _).discard fun _ => (issues_block hr).also fun _ => .done rfl
  dsimp only
  split
  · exact .after (Keeps.pure _) finish
  · exact .after (Keeps.expect _ _).discard fun _ => .after ((@descends_parameterList 0).keeps hd) finish

theorem issues_varDeclaration : Issues [] (varDeclaration rules) Stmt.references := by
  refine .after (Keeps.expectName _) fun name => .after (Keeps.accept _) fun x => ?_
  have finish : ∀ initializer : Option Expr, Issues (Expr.allReferences initializer.toList) (do
      discard (Production.expect .semicolon .variableEnd)
      return Stmt.varDecl name initializer) Stmt.references := fun _ =>
    .after (Keeps.expect _ _).discard fun _ => .done (references_varDecl _ _)
  cases x with
  | some _ =>
    exact (hr .expression).also fun value => Issues.bind (.done (allReferences_singleton value)) finish
  | none => exact Issues.bind (.done rfl) finish

theorem issues_expressionStatement : Issues [] (expressionStatement rules) Stmt.references :=
  (hr .expression).also fun _ => .after (Keeps.expect _ _).discard fun _ => .done rfl

theorem issues_loopInitializer : Issues [] (loopInitializer rules) fun s => Stmt.allReferences s.toList := by
  refine .after (Keeps.accept _) fun x => ?_
  split
  · exact .done rfl
  · refine .after (Keeps.accept _) fun y => ?_
    split
    · exact (issues_varDeclaration hr).map fun _ => List.append_nil _
    · exact (issues_expressionStatement hr).map fun _ => List.append_nil _

theorem issues_expressionUnless (s : Symbol) :
    Issues [] (expressionUnless rules s) fun e => Expr.allReferences e.toList := by
  refine .after (Keeps.ahead _) fun x => ?_
  split
  · exact .done rfl
  · exact (hr .expression).also fun _ => .done (List.append_nil _)

theorem issues_forStatement : Issues [] (forStatement rules) Stmt.references := by
  refine .after (Keeps.expect _ _).discard fun _ => (issues_loopInitializer hr).also fun initializer =>
    (issues_expressionUnless hr _).also fun condition => .after (Keeps.expect _ _).discard fun _ =>
      (issues_expressionUnless hr _).also fun increment => .after (Keeps.expect _ _).discard fun _ =>
        (hr .statement).also fun (body : Stmt) => .pure ?_
  rw [references_loopTree, List.nil_append, List.append_assoc, List.append_assoc]
  exact (((List.perm_append_comm).append_left _).append_left _).subperm

theorem issues_ifStatement : Issues [] (ifStatement rules) Stmt.references := by
  refine .after (Keeps.expect _ _).discard fun _ => (hr .expression).also fun _ =>
    .after (Keeps.expect _ _).discard fun _ => (hr .statement).also fun _ => .after (Keeps.accept _) fun x => ?_
  cases x with
  | some _ => exact (hr .statement).also fun _ => .done rfl
  | none => exact .done rfl

theorem issues_whileStatement : Issues [] (whileStatement rules) Stmt.references :=
  .after (Keeps.expect _ _).discard fun _ => (hr .expression).also fun _ =>
    .after (Keeps.expect _ _).discard fun _ => (hr .statement).also fun _ => .done rfl

theorem issues_returnStatement (keyword : Token) : Issues [] (returnStatement rules keyword) Stmt.references :=
  (issues_expressionUnless hr _).also fun _ => .after (Keeps.expect _ _).discard fun _ =>
    .done (references_returnValue _ _)

theorem issues_printStatement (keyword : Token) : Issues [] (printStatement rules keyword) Stmt.references :=
  (hr .expression).also fun _ => (hr .furtherValues).also fun _ => .after (Keeps.expect _ _).discard fun _ => .done rfl

theorem issues_statement : Issues [] (statement rules) Stmt.references := by
  refine .after (Keeps.accept _) fun x => ?_
  split
  · exact issues_forStatement hr
  refine .after (Keeps.accept _) fun x => ?_
  split
  · exact issues_ifStatement hr
  refine .after (Keeps.accept _) fun x => ?_
  split
  · exact issues_whileStatement hr
  refine .after (Keeps.accept _) fun x => ?_
  split
  · exact .after (Keeps.expect _ _).discard fun _ => .done rfl
  refine .after (Keeps.accept _) fun x => ?_
  split
  · exact issues_returnStatement hr _
  refine .after (Keeps.accept _) fun x => ?_
  split
  · exact (issues_block hr).map fun _ => rfl
  refine .after (Keeps.accept _) fun x => ?_
  split
  · exact issues_printStatement hr _
  · exact issues_expressionStatement hr

include hd in
theorem issues_methods : Issues [] (methods rules) Routine.allReferences := by
  refine .after (Keeps.look _) fun x => ?_
  split
  · exact .done rfl
  · exact (issues_routine hr hd _).also fun _ => (hr .methods).also fun _ => .done rfl

theorem issues_classDeclaration : Issues [] (classDeclaration rules) Stmt.references := by
  refine .after (Keeps.expectName _) fun name => .after (Keeps.accept _) fun x => ?_
  have finish : ∀ parent : Option Expr, Issues (Expr.allReferences parent.toList) (do
      discard (Production.expect .leftBrace .classBody)
      let methods : List Routine ← rules .methods
      discard (Production.expect .rightBrace .classEnd)
      return Stmt.classDecl name parent methods) Stmt.references := fun _ =>
    .after (Keeps.expect _ _).discard fun _ => (hr .methods).also fun _ =>
      .after (Keeps.expect _ _).discard fun _ => .done (references_classDecl _ _ _)
  cases x with
  | some _ =>
    exact .after (Keeps.expectName _) fun parent => .fresh .var parent fun id => Issues.bind (.done rfl) finish
  | none => exact Issues.bind (.done rfl) finish

include hd in
theorem issues_declared : Issues [] (declared rules) Stmt.references := by
  refine .after (Keeps.accept _) fun x => ?_
  split
  · exact issues_classDeclaration hr
  refine .after (Keeps.look _) fun x => ?_
  split
  · exact .after Keeps.advance.discard fun _ => (issues_routine hr hd _).also fun _ => .done rfl
  refine .after (Keeps.accept _) fun x => ?_
  split
  · exact issues_varDeclaration hr
  refine .after (Keeps.accept _) fun x => ?_
  split
  · exact .after (Keeps.expectIf _ _) fun _ => .after (Keeps.expect _ _).discard fun _ => .done rfl
  · exact hr .statement

include hd in
/-- What was read of a declaration that is given up is lost, and so are its identities. -/
theorem issues_declaration : Issues [] (declaration rules) fun s => Stmt.allReferences s.toList :=
  fun c a d h i others hspans => by
    have hdraws := (keeps_declaration hd c d).1 a h
    unfold declaration at h
    split at h
    · next s last hs =>
      cases h
      have hread := issues_declared hr hd c s d hs i others hspans
      rw [← List.append_nil s.references] at hread
      exact hread
    · cases h
      exact hspans.widen (Nat.le_refl _) hdraws
    · cases h

theorem issues_body : Issues [] (body rules) Stmt.allReferences := by
  refine .after (Keeps.look _) fun x => ?_
  split
  · exact .done rfl
  · exact (hr .declaration).also fun _ => (hr .body).also fun _ => .done (allReferences_append _ _)

theorem issues_program : Issues [] (program rules) Stmt.allReferences := by
  refine .after (Keeps.look _) fun x => ?_
  split
  · exact .done rfl
  · exact (hr .declaration).also fun _ => (hr .program).also fun _ => .done (allReferences_append _ _)

theorem issues_furtherValues : Issues [] (furtherValues rules) Expr.allReferences := by
  refine .after (Keeps.accept _) fun x => ?_
  cases x with
  | some _ => exact (hr .expression).also fun _ => (hr .furtherValues).also fun _ => .done rfl
  | none => exact .done rfl

include hd in
theorem issues_expression : Issues [] (expression rules) Expr.references := by
  refine .after (Keeps.accept _) fun x => ?_
  cases x with
  | some keyword =>
    exact .after (Keeps.expect _ _).discard fun _ => .after ((@descends_parameterList 0).keeps hd) fun _ =>
      .after (Keeps.expect _ _).discard fun _ => (issues_block hr).also fun _ => .done rfl
  | none =>
    refine (hr .assignment).also fun _ => .after (Keeps.accept _) fun y => ?_
    cases y with
    | some _ =>
      exact (hr (.operand .equality)).also fun _ => .after (Keeps.expect _ _).discard fun _ =>
        (hr (.operand .equality)).also fun _ => .done rfl
    | none => exact .done rfl

/-- A name on the left of an assignment leaves its identity unused, and what is on the right is lost if nothing can be
assigned. -/
theorem issues_assignment : Issues [] (assignment rules) Expr.references := by
  refine (hr (.operand .or)).also fun target => .after (Keeps.accept _) fun x => ?_
  cases x with
  | some _ =>
    refine (hr .assignment).also fun value => ?_
    cases target with
    | var id name =>
      exact .fresh .assign name fun _ => .pure (((List.sublist_append_right _ _).cons_cons _).subperm)
    | get object name => exact .done rfl
    | _ => exact .after (Keeps.report _ _) fun _ => .pure (List.sublist_append_left _ _).subperm
  | none => exact .done rfl

theorem issues_tighter (level : Level) : Issues [] (tighter rules level) Expr.references := by
  unfold tighter
  split
  · exact hr (.operand _)
  · exact hr .unary

theorem issues_operand (level : Level) : Issues [] (operand rules level) Expr.references :=
  (issues_tighter hr level).also fun left => hr (.operators level left)

theorem issues_operators (level : Level) (left : Expr) :
    Issues left.references (operators rules level left) Expr.references := by
  refine .after (Keeps.acceptAny _) fun x => ?_
  cases x with
  | some operator =>
    refine (issues_tighter hr level).also fun right => ?_
    rw [← references_combine level left operator right]
    exact hr (.operators level _)
  | none => exact .done rfl

omit hr in
include hd in
theorem issues_arrayLiteral (bracket : Token) : Issues [] (arrayLiteral rules bracket) Expr.references := by
  refine .after (Keeps.ahead _) fun x => ?_
  have finish : ∀ values : List Literal, Issues [] (do
      discard (Production.expect .rightBracket .arrayEnd)
      return Expr.array bracket values) Expr.references := fun _ =>
    .after (Keeps.expect _ _).discard fun _ => .done rfl
  cases x with
  | true => exact .after (Keeps.pure _) finish
  | false => exact .after (hd .items) finish

theorem issues_named (name : Token) : Issues [] (named rules name) Expr.references := by
  refine .after (Keeps.look _) fun x => ?_
  split
  · exact .after Keeps.advance fun _ => .after Keeps.advance.discard fun _ => .fresh .var name fun _ =>
      .fresh .assign name fun _ => .done rfl
  · refine .after (Keeps.accept _) fun y => ?_
    split
    · exact (hr .expression).also fun _ => .after (Keeps.expect _ _).discard fun _ => .fresh .index name fun _ => .done rfl
    · exact .fresh .var name fun _ => .done rfl

include hd in
theorem issues_primary : Issues [] (primary rules) Expr.references := by
  refine .after (Keeps.accept _) fun x => ?_
  split
  · exact issues_arrayLiteral hd _
  refine .after (Keeps.look _) fun x => ?_
  split
  · exact .after ((@descends_literalValue 0).keeps hd) fun _ => .done rfl
  refine .after (Keeps.accept _) fun x => ?_
  split
  · exact .fresh .this _ fun _ => .done rfl
  refine .after (Keeps.accept _) fun x => ?_
  split
  · exact .after (Keeps.expectName _) fun _ => .done rfl
  refine .after (Keeps.acceptIf _) fun x => ?_
  split
  · exact issues_named hr _
  refine .after (Keeps.accept _) fun x => ?_
  split
  · exact (hr .expression).also fun _ => .after (Keeps.expect _ _).discard fun _ => .done rfl
  · exact .fail _

include hd in
theorem issues_unary : Issues [] (unary rules) Expr.references := by
  refine .after (Keeps.acceptAny _) fun x => ?_
  cases x with
  | some _ => exact (hr .unary).also fun _ => .done rfl
  | none => exact (issues_primary hr hd).also fun inner => hr (.suffixes inner)

theorem issues_arguments (count : Nat) : Issues [] (arguments rules count) Expr.allReferences := by
  unfold arguments
  split
  · exact .fail _
  · refine (hr .expression).also fun (first : Expr) => .after (Keeps.accept _) fun x => ?_
    cases x with
    | some _ => exact (hr (.arguments (count + 1))).also fun _ => .done rfl
    | none => exact .done (allReferences_singleton first)

theorem issues_suffixes (inner : Expr) : Issues inner.references (suffixes rules inner) Expr.references := by
  refine .after (Keeps.accept _) fun x => ?_
  split
  · refine .after (Keeps.ahead _) fun y => ?_
    have finish : ∀ arguments : List Expr, Issues (inner.references ++ Expr.allReferences arguments) (do
        let paren ← Production.expect .rightParen .argumentsEnd
        rules (.suffixes (.call inner paren arguments))) Expr.references := fun arguments =>
      .after (Keeps.expect _ _) fun paren => hr (.suffixes (.call inner paren arguments))
    cases y with
    | true => exact Issues.bind (.done (List.append_nil _)) finish
    | false => exact (hr (.arguments 0)).also finish
  · refine .after (Keeps.accept _) fun y => ?_
    split
    · exact .after (Keeps.expectName _) fun name => hr (.suffixes (.get inner name))
    · exact .done rfl

include hd in
theorem issues_rulesOver : ∀ phrase : Phrase, Issues phrase.held (rulesOver rules phrase) phrase.references
  | .program => issues_program hr
  | .body => issues_body hr
  | .declaration => issues_declaration hr hd
  | .statement => issues_statement hr
  | .methods => issues_methods hr hd
  | .parameters count => .nothing ((descends_parameters count).keeps hd) fun _ => rfl
  | .expression => issues_expression hr hd
  | .furtherValues => issues_furtherValues hr
  | .assignment => issues_assignment hr
  | .operand level => issues_operand hr level
  | .operators level left => issues_operators hr level left
  | .unary => issues_unary hr hd
  | .suffixes inner => issues_suffixes hr inner
  | .arguments count => issues_arguments hr count
  | .items => .nothing (descends_items.keeps hd) fun _ => rfl

end Productions

theorem issues_produce (n : Nat) (phrase : Phrase) : Issues phrase.held (produce n phrase) phrase.references := by
  induction n generalizing phrase with
  | zero => exact fun _ _ _ h => by cases h
  | succ n ih => exact issues_rulesOver ih (keeps_produce n) phrase

/-- The references of a reading have different identities, from the first one up to below the one that is left for the
next reading, also if something is wrong with what is read. -/
theorem spans_parse (nextId : NodeId) (tokens : List Token) :
    Spans nextId (parse nextId tokens).nextId (Stmt.allReferences (parse nextId tokens).statements) := by
  have hdraws := keeps_produce (Q := fun c d => c.nextId ≤ d.nextId)
    (nestingBound (Cursor.start nextId tokens).ahead.length) .program (Cursor.start nextId tokens)
  unfold parse
  dsimp only
  split
  · next statements last heq => exact issues_produce _ .program _ _ _ heq nextId [] (.nil (Nat.le_refl _))
  · next e last heq => exact .nil ((hdraws last).2 e heq)
  · exact .nil (Nat.le_refl _)

theorem nextId_le_parse (nextId : NodeId) (tokens : List Token) : nextId ≤ (parse nextId tokens).nextId :=
  (spans_parse nextId tokens).le

end Grammar

end Treewalk
