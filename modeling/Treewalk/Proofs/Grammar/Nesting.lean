import Treewalk.Proofs.Grammar.Descent

/-!
The bound on the nesting of productions suffices for every list of tokens. Between two tokens productions only begin
phrases of lower rank, so that the number of tokens ahead and the rank together bound the nesting; and a declaration,
also one that is given up, takes at least one token, so that no loop over declarations stands still.
-/

namespace Treewalk.Grammar

/-- A later position: it has no more tokens ahead, and keeps the errors that were noted. -/
structure Cursor.Onward (c d : Cursor) : Prop where
  ahead : d.ahead.length ≤ c.ahead.length
  errors : c.errors.length ≤ d.errors.length

instance : Respected Cursor.Onward where
  refl _ := ⟨Nat.le_refl _, Nat.le_refl _⟩
  trans h₁ h₂ := ⟨Nat.le_trans h₂.ahead h₁.ahead, Nat.le_trans h₁.errors h₂.errors⟩
  pass h := ⟨by simp [h], Nat.le_refl _⟩
  fresh _ := ⟨Nat.le_refl _, Nat.le_refl _⟩
  report _ _ := ⟨Nat.le_refl _, by simp [Cursor.report]⟩

@[simp]
theorem Cursor.report_ahead (c : Cursor) (e : ParseError) : (c.report e).ahead = c.ahead := rfl

/-- Reading resumes behind the token at the error, if there is one. -/
theorem Cursor.resume_length_le (c : Cursor) : c.resume.ahead.length ≤ c.ahead.length - 1 := by
  have hskip : c.resume.ahead.length ≤ c.advance.ahead.length :=
    (Respected.skip (Q := Cursor.Onward) c.advance c.advance.ahead c.advance.last).ahead
  have hadvance : c.advance.ahead.length = c.ahead.length - 1 := by
    cases h : c.ahead with
    | nil => rw [Cursor.advance_of_atEnd h, h]; rfl
    | cons t rest => rw [Cursor.advance_of_ahead h]; rfl
  omega

/-! ### Productions that take a token -/

/-- The production takes at least one token when it succeeds. -/
def Consumes {α : Type} (p : Production α) : Prop :=
  ∀ c a d, p c = .ok a d → d.ahead.length < c.ahead.length

/-- Every phrase that is read takes the tokens that it has at least. -/
def Takes (rules : Rules) : Prop :=
  ∀ (phrase : Phrase) c a d, rules phrase c = .ok a d → d.ahead.length + phrase.least ≤ c.ahead.length

/-- In the course of a descent as many tokens are read as are in hand at its end, besides those in hand at its
beginning. -/
theorem Descent.takes {α : Type} {least held : Nat} {c : Cursor} {run : Rules → Parsed α} {rules : Rules}
    (ht : Takes rules) (h : Descent least held c run) :
    ∀ {a d}, run rules = .ok a d → d.ahead.length + least ≤ c.ahead.length + held := by
  induction h with
  | done a h =>
    intro b d hd
    cases hd
    omega
  | fail e => exact fun hd => by cases hd
  | move h _ ih =>
    intro a d hd
    have hrest := ih hd
    cases h with
    | pass ha =>
      rw [ha, List.length_cons]
      rw [Cursor.pass_ahead] at hrest
      omega
    | fresh => exact hrest
    | report e =>
      rw [Cursor.report_ahead] at hrest
      omega
  | @ask held c phrase rest h _ ih =>
    intro b d hd
    cases hq : rules phrase c with
    | ok a mid =>
      dsimp only at hd
      rw [hq] at hd
      have hfirst := ht phrase c a mid hq
      have hrest := ih a mid hd
      omega
    | failed e mid =>
      dsimp only at hd
      rw [hq] at hd
      cases hd
    | exhausted =>
      dsimp only at hd
      rw [hq] at hd
      cases hd

section Consumption
variable {rules : Rules} (ht : Takes rules)
include ht

theorem consumes_routine (kind : RoutineKind) : Consumes (routine rules kind) := fun c _ _ h =>
  (@descends_routine 0 kind c).takes ht h

variable (hk : ∀ phrase, Keeps Cursor.Onward (rules phrase))
include hk

/-- A declaration takes a token in any case: also one that is given up. -/
theorem consumes_declaration {c d : Cursor} {s : Option Stmt} (hne : c.ahead ≠ [])
    (h : declaration rules c = .ok s d) : d.ahead.length < c.ahead.length := by
  unfold declaration at h
  split at h
  · next hd =>
    cases h
    exact (descends_declared c).takes ht hd
  · next e next hd =>
    cases h
    have hnext : next.ahead.length ≤ c.ahead.length := ((keeps_declared hk c next).2 e hd).ahead
    have hresume := (next.report e).resume_length_le
    have hstart := List.length_pos_iff.mpr hne
    rw [Cursor.report_ahead] at hresume
    omega
  · cases h

theorem takes_rulesOver : Takes (rulesOver rules) := fun phrase c a d h => by
  by_cases hp : phrase = .declaration
  · subst hp
    exact ((keeps_declaration hk c d).1 a h).ahead
  · have := (descends_rulesOver hp c).takes ht h
    omega

end Consumption

theorem takes_produce (n : Nat) : Takes (produce n) := by
  induction n with
  | zero => exact fun _ _ _ _ h => by cases h
  | succ n ih => exact takes_rulesOver ih (keeps_produce n)

/-! ### Productions that come to a decision -/

/-- The production decides within a grant of `n`, of which it sets `k` aside where it starts and sixteen for each token
ahead. -/
def Decides {α : Type} (n k : Nat) (p : Production α) : Prop :=
  ∀ c : Cursor, 16 * c.ahead.length + k ≤ n → p c ≠ .exhausted

namespace Decides

variable {α β : Type} {n k : Nat}

theorem mono {p : Production α} {l : Nat} (hp : Decides n l p) (h : l ≤ k) : Decides n k p :=
  fun c hc => hp c (by omega)

theorem pure (a : α) : Decides n k (Pure.pure a : Production α) := fun c _ h => by cases h

theorem fail (fault : ParseFault) : Decides n k (Production.fail fault : Production α) := fun c _ h => by cases h

theorem bind {p : Production α} {f : α → Production β} (hk : Keeps Cursor.Onward p) (hp : Decides n k p)
    (hf : ∀ a, Decides n k (f a)) : Decides n k (p >>= f) := fun c hc h => by
  rcases Production.bind_eq_exhausted.mp h with h₁ | ⟨a, mid, h₁, h₂⟩
  · exact hp c hc h₁
  · have := ((hk c mid).1 a h₁).ahead
    exact hf a mid (by omega) h₂

/-- Behind a production that takes a token there is at least one token less to set something aside for. -/
theorem bind_consumes {p : Production α} {f : α → Production β} (hc : Consumes p) (hp : Decides n k p)
    (hf : ∀ a, Decides n (k + 16) (f a)) : Decides n k (p >>= f) := fun c h0 h => by
  rcases Production.bind_eq_exhausted.mp h with h₁ | ⟨a, mid, h₁, h₂⟩
  · exact hp c h0 h₁
  · have := hc c a mid h₁
    exact hf a mid (by omega) h₂

theorem look (f : Cursor → α) : Decides n k (Production.look f) := fun c _ h => by cases h

theorem look_bind {f : Cursor → α} {g : α → Production β} (hg : ∀ a, Decides n k (g a)) :
    Decides n k (Production.look f >>= g) :=
  bind (Keeps.look f) (look f) hg

theorem fresh_bind {f : NodeId → Production β} (hf : ∀ a, Decides n k (f a)) :
    Decides n k (Production.fresh >>= f) :=
  bind Keeps.fresh (fun c _ h => by cases h) hf

/-- Behind an accepted token there is one token less to set something aside for. -/
theorem acceptIf_bind {p : Token → Bool} {f : Option Token → Production β}
    (hsome : ∀ t, Decides n (k + 16) (f (some t))) (hnone : Decides n k (f none)) :
    Decides n k (Production.acceptIf p >>= f) := fun c hc h => by
  rcases Production.bind_eq_exhausted.mp h with h₁ | ⟨x, mid, h₁, h₂⟩
  · unfold Production.acceptIf at h₁
    split at h₁ <;> cases h₁
  · rcases Production.acceptIf_eq_ok h₁ with ⟨t, rest, rfl, ha, -, rfl⟩ | ⟨rfl, rfl, -⟩
    · refine hsome t _ ?_ h₂
      rw [ha, List.length_cons] at hc
      simp only [Cursor.pass_ahead]
      omega
    · exact hnone mid hc h₂

theorem expectIf_bind {p : Token → Bool} {what : Expected} {f : Token → Production β}
    (hf : ∀ t, Decides n (k + 16) (f t)) : Decides n k (Production.expectIf p what >>= f) := fun c hc h => by
  rcases Production.bind_eq_exhausted.mp h with h₁ | ⟨t, mid, h₁, h₂⟩
  · unfold Production.expectIf at h₁
    split at h₁ <;> cases h₁
  · obtain ⟨rest, ha, -, rfl⟩ := Production.expectIf_eq_ok h₁
    refine hf t _ ?_ h₂
    rw [ha, List.length_cons] at hc
    simp only [Cursor.pass_ahead]
    omega

theorem expect_bind {s : Symbol} {what : Expected} {f : Unit → Production β}
    (hf : Decides n (k + 16) (f ())) : Decides n k (discard (Production.expect s what) >>= f) := fun c hc h => by
  rcases Production.bind_eq_exhausted.mp h with h₁ | ⟨u, mid, h₁, h₂⟩
  · rcases Production.bind_eq_exhausted.mp h₁ with h₁ | ⟨t, mid, -, h₁⟩
    · unfold Production.expect Production.expectIf at h₁
      split at h₁ <;> cases h₁
    · cases h₁
  · obtain ⟨t, rest, ha, -, rfl⟩ := Production.discard_expect_eq_ok h₁
    refine hf _ ?_ h₂
    rw [ha, List.length_cons] at hc
    simp only [Cursor.pass_ahead]
    omega

theorem map {p : Production α} {f : α → β} (hk : Keeps Cursor.Onward p) (hp : Decides n k p) :
    Decides n k (f <$> p) :=
  bind hk hp fun _ => pure _

end Decides

/-- The rank of a phrase: before a token is taken, its production begins only phrases of lower rank. -/
def Phrase.rank : Phrase → Nat
  | .program => 13
  | .body => 13
  | .declaration => 12
  | .statement => 11
  | .methods => 1
  | .parameters _ => 1
  | .expression => 10
  | .furtherValues => 1
  | .assignment => 9
  | .operand .or => 8
  | .operand .and => 7
  | .operand .equality => 6
  | .operand .comparison => 5
  | .operand .sum => 4
  | .operand .product => 3
  | .operators _ _ => 1
  | .unary => 2
  | .suffixes _ => 1
  | .arguments _ => 11
  | .items => 1

section Decisions
variable {rules : Rules} {n : Nat} (hk : ∀ phrase, Keeps Cursor.Onward (rules phrase))
  (hr : ∀ phrase, Decides n (phrase.rank + 1) (rules phrase))
include hk hr

theorem decides_block {k : Nat} (h : 14 ≤ k) : Decides n k (block rules) :=
  Decides.bind (hk .body) ((hr .body).mono h) fun _ => Decides.expect_bind (Decides.pure _)

theorem decides_parameterList {k : Nat} (h : 2 ≤ k) : Decides n k (parameterList rules) := by
  refine Decides.look_bind fun x => ?_
  have finish : ∀ params : List Token, Decides n k (do
      discard (Production.expect .rightParen .parametersEnd)
      return params) := fun _ => Decides.expect_bind (Decides.pure _)
  cases x with
  | true => exact finish []
  | false => exact Decides.bind (hk (.parameters 0)) ((hr (.parameters 0)).mono h) finish

theorem decides_parameters (count : Nat) : Decides n 1 (parameters rules count) := by
  unfold parameters
  split
  · exact Decides.fail _
  · refine Decides.expectIf_bind fun name => Decides.acceptIf_bind (fun t => ?_) (Decides.pure _)
    exact Decides.bind (hk (.parameters (count + 1))) ((hr (.parameters (count + 1))).mono (by simp [Phrase.rank])) fun _ =>
      Decides.pure _

theorem decides_routine (kind : RoutineKind) {k : Nat} : Decides n k (routine rules kind) := by
  refine Decides.expectIf_bind fun name => Decides.look_bind fun bare => ?_
  have finish : ∀ params : List Token, Decides n (k + 16) (do
      discard (Production.expect .leftBrace (.routineBody kind))
      let body ← block rules
      return (⟨name, params, body⟩ : Routine)) := fun _ =>
    Decides.expect_bind (Decides.bind ((@descends_block 0).keeps hk) (decides_block hk hr (by omega)) fun _ =>
      Decides.pure _)
  dsimp only
  split
  · exact finish []
  · refine Decides.expect_bind ?_
    exact Decides.bind ((@descends_parameterList 0).keeps hk) (decides_parameterList hk hr (by omega)) fun params =>
      (finish params).mono (by omega)

omit hk in
theorem decides_expression {k : Nat} (h : 11 ≤ k) : Decides n k (rules .expression) := (hr .expression).mono h

theorem decides_varDeclaration {k : Nat} : Decides n k (varDeclaration rules) := by
  refine Decides.expectIf_bind fun name => ?_
  have finish : ∀ {l : Nat} (initializer : Option Expr), Decides n l (do
      discard (Production.expect .semicolon .variableEnd)
      return Stmt.varDecl name initializer) := fun _ => Decides.expect_bind (Decides.pure _)
  refine Decides.acceptIf_bind (fun t => ?_) (finish none)
  exact Decides.bind (hk .expression) (decides_expression hr (by omega)) fun value => finish (some value)

theorem decides_expressionStatement {k : Nat} (h : 11 ≤ k) : Decides n k (expressionStatement rules) :=
  Decides.bind (hk .expression) (decides_expression hr h) fun _ => Decides.expect_bind (Decides.pure _)

theorem decides_loopInitializer {k : Nat} (h : 11 ≤ k) : Decides n k (loopInitializer rules) := by
  refine Decides.acceptIf_bind (fun _ => Decides.pure _) ?_
  refine Decides.acceptIf_bind (fun _ => ?_) ?_
  · exact Decides.map ((@descends_varDeclaration 0).keeps hk) (decides_varDeclaration hk hr)
  · exact Decides.map ((@descends_expressionStatement 0).keeps hk) (decides_expressionStatement hk hr h)

theorem decides_expressionUnless (s : Symbol) {k : Nat} (h : 11 ≤ k) : Decides n k (expressionUnless rules s) := by
  refine Decides.look_bind fun x => ?_
  cases x with
  | true => exact Decides.pure _
  | false => exact Decides.bind (hk .expression) (decides_expression hr h) fun _ => Decides.pure _

theorem decides_forStatement : Decides n 27 (forStatement rules) := by
  refine Decides.expect_bind ?_
  refine Decides.bind ((@descends_loopInitializer 0).keeps hk) (decides_loopInitializer hk hr (by omega)) fun _ => ?_
  refine Decides.bind ((@descends_expressionUnless 0 _).keeps hk) (decides_expressionUnless hk hr _ (by omega)) fun _ => ?_
  refine Decides.expect_bind ?_
  refine Decides.bind ((@descends_expressionUnless 0 _).keeps hk) (decides_expressionUnless hk hr _ (by omega)) fun _ => ?_
  refine Decides.expect_bind ?_
  exact Decides.bind (hk .statement) ((hr .statement).mono (by decide)) fun _ => Decides.pure _

theorem decides_ifStatement : Decides n 27 (ifStatement rules) := by
  refine Decides.expect_bind ?_
  refine Decides.bind (hk .expression) (decides_expression hr (by omega)) fun _ => Decides.expect_bind ?_
  refine Decides.bind (hk .statement) ((hr .statement).mono (by decide)) fun _ => ?_
  refine Decides.acceptIf_bind (fun _ => ?_) (Decides.pure _)
  exact Decides.bind (hk .statement) ((hr .statement).mono (by decide)) fun _ => Decides.pure _

theorem decides_whileStatement : Decides n 27 (whileStatement rules) := by
  refine Decides.expect_bind ?_
  refine Decides.bind (hk .expression) (decides_expression hr (by omega)) fun _ => Decides.expect_bind ?_
  exact Decides.bind (hk .statement) ((hr .statement).mono (by decide)) fun _ => Decides.pure _

theorem decides_returnStatement (keyword : Token) : Decides n 27 (returnStatement rules keyword) :=
  Decides.bind ((@descends_expressionUnless 0 _).keeps hk) (decides_expressionUnless hk hr _ (by omega)) fun _ =>
    Decides.expect_bind (Decides.pure _)

theorem decides_printStatement (keyword : Token) : Decides n 27 (printStatement rules keyword) :=
  Decides.bind (hk .expression) (decides_expression hr (by omega)) fun _ =>
    Decides.bind (hk .furtherValues) ((hr .furtherValues).mono (by decide)) fun _ =>
      Decides.expect_bind (Decides.pure _)

theorem decides_statement : Decides n 11 (statement rules) := by
  refine Decides.acceptIf_bind (fun _ => decides_forStatement hk hr) ?_
  refine Decides.acceptIf_bind (fun _ => decides_ifStatement hk hr) ?_
  refine Decides.acceptIf_bind (fun _ => decides_whileStatement hk hr) ?_
  refine Decides.acceptIf_bind (fun _ => Decides.expect_bind (Decides.pure _)) ?_
  refine Decides.acceptIf_bind (fun _ => decides_returnStatement hk hr _) ?_
  refine Decides.acceptIf_bind (fun _ => Decides.map ((@descends_block 0).keeps hk) (decides_block hk hr (by omega))) ?_
  exact Decides.acceptIf_bind (fun _ => decides_printStatement hk hr _) (decides_expressionStatement hk hr (by omega))

theorem decides_methods (ht : Takes rules) : Decides n 1 (methods rules) := by
  refine Decides.look_bind fun x => ?_
  cases x with
  | true => exact Decides.pure _
  | false =>
    exact Decides.bind_consumes (consumes_routine ht _) (decides_routine hk hr _) fun _ =>
      Decides.bind (hk .methods) ((hr .methods).mono (by decide)) fun _ => Decides.pure _

theorem decides_classDeclaration {k : Nat} : Decides n k (classDeclaration rules) := by
  refine Decides.expectIf_bind fun name => ?_
  have finish : ∀ {l : Nat} (parent : Option Expr), Decides n l (do
      discard (Production.expect .leftBrace .classBody)
      let methods : List Routine ← rules .methods
      discard (Production.expect .rightBrace .classEnd)
      return Stmt.classDecl name parent methods) := fun _ => by
    refine Decides.expect_bind ?_
    exact Decides.bind (hk .methods) ((hr .methods).mono (by simp [Phrase.rank])) fun _ =>
      Decides.expect_bind (Decides.pure _)
  refine Decides.acceptIf_bind (fun _ => ?_) (finish none)
  exact Decides.expectIf_bind fun parent => Decides.fresh_bind fun id => finish (some (.var id parent))

theorem decides_declared : Decides n 12 (declared rules) := by
  refine Decides.acceptIf_bind (fun _ => decides_classDeclaration hk hr) ?_
  refine Decides.look_bind fun x => ?_
  split
  · refine Decides.bind Keeps.advance.discard (fun c _ h => by cases h) fun _ => ?_
    exact Decides.bind ((@descends_routine 0 _).keeps hk) (decides_routine hk hr _) fun _ => Decides.pure _
  · refine Decides.acceptIf_bind (fun _ => decides_varDeclaration hk hr) ?_
    refine Decides.acceptIf_bind (fun _ => ?_) (hr .statement)
    exact Decides.expectIf_bind fun _ => Decides.expect_bind (Decides.pure _)

theorem decides_declaration : Decides n 12 (declaration rules) := fun c hc h => by
  unfold declaration at h
  split at h
  · cases h
  · cases h
  · next hd => exact decides_declared hk hr c hc hd

theorem decides_furtherValues : Decides n 1 (furtherValues rules) := by
  refine Decides.acceptIf_bind (fun _ => ?_) (Decides.pure _)
  exact Decides.bind (hk .expression) (decides_expression hr (by omega)) fun _ =>
    Decides.bind (hk .furtherValues) ((hr .furtherValues).mono (by decide)) fun _ => Decides.pure _

theorem decides_lambda (keyword : Token) : Decides n 26 (lambda rules keyword) := by
  refine Decides.expect_bind ?_
  refine Decides.bind ((@descends_parameterList 0).keeps hk) (decides_parameterList hk hr (by omega)) fun _ => ?_
  exact Decides.expect_bind (Decides.bind ((@descends_block 0).keeps hk) (decides_block hk hr (by omega)) fun _ =>
    Decides.pure _)

theorem decides_expression_production : Decides n 10 (expression rules) := by
  refine Decides.acceptIf_bind (fun t => decides_lambda hk hr t) ?_
  refine Decides.bind (hk .assignment) (hr .assignment) fun _ => ?_
  refine Decides.acceptIf_bind (fun _ => ?_) (Decides.pure _)
  refine Decides.bind (hk (.operand .equality)) ((hr (.operand .equality)).mono (by decide)) fun _ => ?_
  refine Decides.expect_bind ?_
  exact Decides.bind (hk (.operand .equality)) ((hr (.operand .equality)).mono (by decide)) fun _ => Decides.pure _

theorem decides_assignment : Decides n 9 (assignment rules) := by
  refine Decides.bind (hk (.operand .or)) (hr (.operand .or)) fun target => ?_
  refine Decides.acceptIf_bind (fun _ => ?_) (Decides.pure _)
  refine Decides.bind (hk .assignment) ((hr .assignment).mono (by decide)) fun _ => ?_
  cases target with
  | var id name => exact Decides.fresh_bind fun _ => Decides.pure _
  | get object name => exact Decides.pure _
  | _ => exact Decides.bind (Keeps.report _ _) (fun c _ h => by cases h) fun _ => Decides.pure _

omit hk in
theorem decides_tighter (level : Level) : Decides n (Phrase.operand level).rank (tighter rules level) := by
  cases level with
  | or => exact hr (.operand .and)
  | and => exact hr (.operand .equality)
  | equality => exact hr (.operand .comparison)
  | comparison => exact hr (.operand .sum)
  | sum => exact hr (.operand .product)
  | product => exact hr .unary

theorem decides_operand (level : Level) : Decides n (Phrase.operand level).rank (operand rules level) := by
  refine Decides.bind ((@descends_tighter 0 level).keeps hk) (decides_tighter hr level) fun left => ?_
  refine (hr (.operators level left)).mono ?_
  cases level <;> simp [Phrase.rank]

theorem decides_operators (level : Level) (left : Expr) : Decides n 1 (operators rules level left) := by
  refine Decides.acceptIf_bind (fun operator => ?_) (Decides.pure _)
  refine Decides.bind ((@descends_tighter 0 level).keeps hk) ((decides_tighter hr level).mono ?_) fun right => ?_
  · cases level <;> decide
  · exact (hr (.operators level (level.combine left operator right))).mono (by simp [Phrase.rank])

omit hk hr in
theorem decides_literalValue {k : Nat} : Decides n k literalValue := fun c _ h => by
  rw [literalValue_apply] at h
  split at h <;> cases h

omit hr in
theorem decides_item {k : Nat} : Decides n k item := by
  refine Decides.look_bind fun x => ?_
  split
  · refine Decides.bind Keeps.advance.discard (fun c _ h => by cases h) fun _ => ?_
    exact Decides.map ((@descends_literalValue 0).keeps hk) decides_literalValue
  · exact decides_literalValue

theorem decides_items : Decides n 1 (items rules) := by
  refine Decides.bind ((@descends_item 0).keeps hk) (decides_item hk) fun _ =>
    Decides.acceptIf_bind (fun _ => ?_) (Decides.pure _)
  exact Decides.bind (hk .items) ((hr .items).mono (by decide)) fun _ => Decides.pure _

theorem decides_arrayLiteral (bracket : Token) : Decides n 18 (arrayLiteral rules bracket) := by
  refine Decides.look_bind fun x => ?_
  have finish : ∀ values : List Literal, Decides n 18 (do
      discard (Production.expect .rightBracket .arrayEnd)
      return Expr.array bracket values) := fun _ => Decides.expect_bind (Decides.pure _)
  cases x with
  | true => exact finish []
  | false => exact Decides.bind (hk .items) ((hr .items).mono (by decide)) finish

theorem decides_named (name : Token) : Decides n 18 (named rules name) := by
  refine Decides.look_bind fun x => ?_
  split
  · exact fun c _ h => by cases h
  · refine Decides.acceptIf_bind (fun _ => ?_) (Decides.fresh_bind fun _ => Decides.pure _)
    exact Decides.bind (hk .expression) (decides_expression hr (by omega)) fun _ =>
      Decides.expect_bind (Decides.fresh_bind fun _ => Decides.pure _)

theorem decides_primary : Decides n 2 (primary rules) := by
  refine Decides.acceptIf_bind (fun t => decides_arrayLiteral hk hr t) ?_
  refine Decides.look_bind fun x => ?_
  split
  · exact Decides.map ((@descends_literalValue 0).keeps hk) decides_literalValue
  refine Decides.acceptIf_bind (fun _ => Decides.fresh_bind fun _ => Decides.pure _) ?_
  refine Decides.acceptIf_bind (fun _ => Decides.expectIf_bind fun _ => Decides.pure _) ?_
  refine Decides.acceptIf_bind (fun t => decides_named hk hr t) ?_
  refine Decides.acceptIf_bind (fun _ => ?_) (Decides.fail _)
  exact Decides.bind (hk .expression) (decides_expression hr (by omega)) fun _ => Decides.expect_bind (Decides.pure _)

theorem decides_unary : Decides n 2 (unary rules) := by
  refine Decides.acceptIf_bind (fun _ => ?_) ?_
  · exact Decides.bind (hk .unary) ((hr .unary).mono (by decide)) fun _ => Decides.pure _
  · exact Decides.bind (descends_primary.keeps hk) (decides_primary hk hr) fun inner => hr (.suffixes inner)

theorem decides_arguments (count : Nat) : Decides n 11 (arguments rules count) := by
  unfold arguments
  split
  · exact Decides.fail _
  · refine Decides.bind (hk .expression) (decides_expression hr (by omega)) fun _ => ?_
    refine Decides.acceptIf_bind (fun _ => ?_) (Decides.pure _)
    exact Decides.bind (hk (.arguments (count + 1))) ((hr (.arguments (count + 1))).mono (by simp [Phrase.rank]))
      fun _ => Decides.pure _

theorem decides_suffixes (inner : Expr) : Decides n 1 (suffixes rules inner) := by
  refine Decides.acceptIf_bind (fun _ => ?_) ?_
  · refine Decides.look_bind fun y => ?_
    have finish : ∀ arguments : List Expr, Decides n 17 (do
        let paren ← Production.expect .rightParen .argumentsEnd
        rules (.suffixes (.call inner paren arguments))) := fun arguments =>
      Decides.expectIf_bind fun paren => (hr (.suffixes (.call inner paren arguments))).mono (by simp [Phrase.rank])
    cases y with
    | true => exact finish []
    | false => exact Decides.bind (hk (.arguments 0)) ((hr (.arguments 0)).mono (by decide)) finish
  · refine Decides.acceptIf_bind (fun _ => ?_) (Decides.pure _)
    exact Decides.expectIf_bind fun name => (hr (.suffixes (.get inner name))).mono (by simp [Phrase.rank])

variable (hc : ∀ {c d s}, c.ahead ≠ [] → rules .declaration c = .ok s d → d.ahead.length < c.ahead.length)
include hc

omit hk in
/-- Where a token is ahead a declaration takes one, so what follows it has a grant of its own. -/
theorem decides_declarations {stop : Cursor → Bool} (hstop : ∀ c, stop c = false → c.ahead ≠ [])
    {rest : Option Stmt → Production (List Stmt)} (hrest : ∀ first, Decides n 29 (rest first)) :
    Decides n 13 (do
      if ← Production.look stop then return []
      else
        let first : Option Stmt ← rules .declaration
        rest first) := fun c h0 h => by
  rcases Production.bind_eq_exhausted.mp h with h₁ | ⟨x, start, h₁, h⟩
  · cases h₁
  obtain ⟨rfl, rfl⟩ := Production.look_eq_ok.mp h₁
  split at h
  · cases h
  · next hgo =>
    rcases Production.bind_eq_exhausted.mp h with h | ⟨first, mid, hfirst, h⟩
    · exact hr .declaration c h0 h
    · have := hc (hstop c (by simpa using hgo)) hfirst
      exact hrest first mid (by omega) h

theorem decides_body : Decides n 13 (body rules) := by
  refine decides_declarations hr hc (fun c hgo hnil => ?_) fun _ =>
    Decides.bind (hk .body) ((hr .body).mono (by decide)) fun _ => Decides.pure _
  simp [Cursor.atEnd, hnil] at hgo

theorem decides_program : Decides n 13 (program rules) := by
  refine decides_declarations hr hc (fun c hgo hnil => ?_) fun _ =>
    Decides.bind (hk .program) ((hr .program).mono (by decide)) fun _ => Decides.pure _
  simp [Cursor.atEnd, hnil] at hgo

theorem decides_rulesOver (ht : Takes rules) : ∀ phrase : Phrase, Decides n phrase.rank (rulesOver rules phrase)
  | .program => decides_program hk hr hc
  | .body => decides_body hk hr hc
  | .declaration => decides_declaration hk hr
  | .statement => decides_statement hk hr
  | .methods => decides_methods hk hr ht
  | .parameters count => decides_parameters hk hr count
  | .expression => decides_expression_production hk hr
  | .furtherValues => decides_furtherValues hk hr
  | .assignment => decides_assignment hk hr
  | .operand level => decides_operand hk hr level
  | .operators level left => decides_operators hk hr level left
  | .unary => decides_unary hk hr
  | .suffixes inner => decides_suffixes hk hr inner
  | .arguments count => decides_arguments hk hr count
  | .items => decides_items hk hr

end Decisions

theorem produce_declaration_consumes {n : Nat} {c d : Cursor} {s : Option Stmt} (hne : c.ahead ≠ [])
    (h : produce n .declaration c = .ok s d) : d.ahead.length < c.ahead.length := by
  cases n with
  | zero => cases h
  | succ n => exact consumes_declaration (takes_produce n) (keeps_produce n) hne h

/-- A grant of sixteen for each token ahead and of the rank of the phrase suffices. -/
theorem decides_produce (n : Nat) (phrase : Phrase) : Decides n phrase.rank (produce n phrase) := by
  induction n generalizing phrase with
  | zero =>
    intro c hc
    have : 0 < phrase.rank := by
      cases phrase with
      | operand level => cases level <;> decide
      | _ => simp [Phrase.rank]
    omega
  | succ n ih =>
    refine decides_rulesOver (keeps_produce n) (fun phrase c hc => ?_) produce_declaration_consumes
      (takes_produce n) phrase
    exact ih phrase c (by omega)

/-- The bound on the nesting suffices to read any list of tokens. -/
theorem produce_program_ne_exhausted (c : Cursor) :
    produce (nestingBound c.ahead.length) .program c ≠ .exhausted :=
  decides_produce _ .program c (by simp only [nestingBound, Phrase.rank]; omega)

end Treewalk.Grammar
