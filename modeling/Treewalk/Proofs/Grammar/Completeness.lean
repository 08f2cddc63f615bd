import Treewalk.Proofs.Grammar.Soundness

/-!
What the grammar derives is read, and without an error, provided that what follows cannot extend it. A production that
is cut off before it has decided is left out of account here: with the bound on the nesting there is none.
-/

namespace Treewalk.Grammar

/-- From the point the production reads the tree, up to the second point and without an error, unless it is cut off. -/
def Gives {α : Type} (p : Production α) (x : Point) (a : α) (y : Point) : Prop :=
  ∀ c : Cursor, c.point = x → p c = .exhausted ∨ ∃ d, p c = .ok a d ∧ d.point = y ∧ d.errors = c.errors

namespace Gives

variable {α β : Type} {x y z : Point} {a : α} {b : β}

theorem pure : Gives (Pure.pure a) x a x := fun c hc => Or.inr ⟨c, rfl, hc, rfl⟩

variable {p : Production β} {i : NodeId} {t : Token} {rest : List Token} {s : Symbol}

theorem bind {f : β → Production α} (hp : Gives p x b y) (hf : Gives (f b) y a z) :
    Gives (p >>= f) x a z := fun c hc => by
  rcases hp c hc with h | ⟨mid, h, hmid, he⟩
  · exact Or.inl (Production.bind_eq_exhausted.mpr (Or.inl h))
  · rcases hf mid hmid with h' | ⟨d, h', hd, he'⟩
    · exact Or.inl (Production.bind_eq_exhausted.mpr (Or.inr ⟨b, mid, h, h'⟩))
    · exact Or.inr ⟨d, Production.bind_eq_ok.mpr ⟨b, mid, h, h'⟩, hd, he'.trans he⟩

theorem map {f : β → α} (hp : Gives p x b y) : Gives (f <$> p) x (f b) y := hp.bind pure

theorem discard_bind {f : Unit → Production α} (hp : Gives p x b y) (hf : Gives (f ()) y a z) :
    Gives (discard p >>= f) x a z :=
  bind (b := ()) (hp.bind pure) hf

theorem look {f : Cursor → α} (h : ∀ c : Cursor, c.point = x → f c = a) : Gives (Production.look f) x a x :=
  fun c hc => Or.inr ⟨c, congrArg (fun a => Parsed.ok a c) (h c hc), hc, rfl⟩

theorem fresh {tokens : List Token} : Gives Production.fresh ⟨tokens, i⟩ i ⟨tokens, i + 1⟩ :=
  fun c hc => by
    obtain ⟨ha, hi⟩ : c.ahead = tokens ∧ c.nextId = i := by simpa [Cursor.point] using hc
    exact Or.inr ⟨{ c with nextId := c.nextId + 1 }, by rw [← hi]; rfl, by simp [Cursor.point, ha, hi], rfl⟩

theorem advance : Gives Production.advance ⟨t :: rest, i⟩ t ⟨rest, i⟩ := fun c hc => by
  obtain ⟨ha, hi⟩ : c.ahead = t :: rest ∧ c.nextId = i := by simpa [Cursor.point] using hc
  refine Or.inr ⟨c.pass t rest, ?_, by simp [Cursor.point, hi], rfl⟩
  show Parsed.ok c.advance.last c.advance = _
  rw [Cursor.advance_of_ahead ha]
  rfl

theorem acceptIf_some {p : Token → Bool} (h : p t) :
    Gives (Production.acceptIf p) ⟨t :: rest, i⟩ (some t) ⟨rest, i⟩ := fun c hc => by
  obtain ⟨ha, hi⟩ : c.ahead = t :: rest ∧ c.nextId = i := by simpa [Cursor.point] using hc
  refine Or.inr ⟨c.pass t rest, ?_, by simp [Cursor.point, hi], rfl⟩
  unfold Production.acceptIf
  rw [Cursor.check_of_ahead ha, h, Cursor.advance_of_ahead ha]
  rfl

theorem acceptIf_none {p : Token → Bool} (h : ∀ t rest, x.ahead = t :: rest → ¬p t) :
    Gives (Production.acceptIf p) x none x := fun c hc => by
  refine Or.inr ⟨c, ?_, hc, rfl⟩
  unfold Production.acceptIf
  rw [Cursor.check_eq_false.mpr (by rw [← hc] at h; exact h)]
  rfl

theorem expectIf {p : Token → Bool} {what : Expected} (h : p t) :
    Gives (Production.expectIf p what) ⟨t :: rest, i⟩ t ⟨rest, i⟩ := fun c hc => by
  obtain ⟨ha, hi⟩ : c.ahead = t :: rest ∧ c.nextId = i := by simpa [Cursor.point] using hc
  refine Or.inr ⟨c.pass t rest, ?_, by simp [Cursor.point, hi], rfl⟩
  unfold Production.expectIf
  rw [Cursor.check_of_ahead ha, h, Cursor.advance_of_ahead ha]
  rfl

theorem expect_bind {what : Expected} {f : Unit → Production α} (h : t.is s) (hf : Gives (f ()) ⟨rest, i⟩ a y) :
    Gives (discard (Production.expect s what) >>= f) ⟨t :: rest, i⟩ a y :=
  discard_bind (expectIf h) hf

theorem accept_some_bind {f : Option Token → Production α} (h : t.is s) (hf : Gives (f (some t)) ⟨rest, i⟩ a y) :
    Gives (Production.accept s >>= f) ⟨t :: rest, i⟩ a y :=
  bind (acceptIf_some h) hf

theorem accept_none_bind {f : Option Token → Production α} (h : NotAhead s x.ahead) (hf : Gives (f none) x a y) :
    Gives (Production.accept s >>= f) x a y :=
  bind (acceptIf_none h) hf

theorem ahead_yes_bind {f : Bool → Production α} (h : t.is s) (hf : Gives (f true) ⟨t :: rest, i⟩ a y) :
    Gives (Production.ahead s >>= f) ⟨t :: rest, i⟩ a y :=
  bind (look fun _ hc => Cursor.check_eq_true.mpr ⟨t, rest, congrArg Point.ahead hc, h⟩) hf

theorem ahead_no_bind {f : Bool → Production α} (h : NotAhead s x.ahead) (hf : Gives (f false) x a y) :
    Gives (Production.ahead s >>= f) x a y :=
  bind (look fun _ hc => Cursor.check_eq_false.mpr (by rw [← hc] at h; exact h)) hf

end Gives

/-! ### Beginnings -/

variable {t : Token} {s : Symbol} {symbols : List Symbol} {rest tokens : List Token}

theorem is_iff : t.is s = true ↔ t.kind = .symbol s := by simp [Token.is]

theorem isIdentifier_iff : t.isIdentifier = true ↔ t.kind = .identifier := by simp [Token.isIdentifier]

/-- The symbols that are constants. -/
def literalSymbols : List Symbol := [.kwTrue, .kwFalse, .kwNil]

/-- The symbols that a primary expression can begin with. -/
def primarySymbols : List Symbol :=
  [.kwThis, .leftBracket, .kwGlobal, .leftParen] ++ literalSymbols

/-- The symbols that an operand can begin with. -/
def operandSymbols : List Symbol :=
  .bang :: .minus :: primarySymbols

/-- The tokens begin with one that is no symbol, or one of the given symbols. -/
def BeginsWith (symbols : List Symbol) (tokens : List Token) : Prop :=
  ∃ t rest, tokens = t :: rest ∧ ∀ s, t.is s → s ∈ symbols

/-- The symbols that a statement can begin with, apart from those of expressions. -/
def statementSymbols : List Symbol :=
  [.kwFor, .kwIf, .kwWhile, .kwBreak, .kwReturn, .leftBrace, .kwPrint]

/-- An expression can begin with the tokens: the keyword of a function stands before a parenthesis. -/
def BeginsExpression (tokens : List Token) : Prop :=
  BeginsWith operandSymbols tokens ∨
    ∃ keyword opening rest, tokens = keyword :: opening :: rest ∧ keyword.is .kwFun ∧ opening.is .leftParen

/-- A statement can begin with the tokens. -/
def BeginsStatement (tokens : List Token) : Prop :=
  BeginsExpression tokens ∨ ∃ t rest, tokens = t :: rest ∧ ∃ s ∈ statementSymbols, t.is s

/-- What the tokens of a nonterminal begin with. -/
def Nonterminal.Begins : Nonterminal → List Token → Prop
  | .declaration, tokens => ∃ t rest, tokens = t :: rest ∧ ¬t.is .rightBrace
  | .method, tokens => ∃ t rest, tokens = t :: rest ∧ t.isIdentifier
  | .varDecl, tokens => ∃ t rest, tokens = t :: rest ∧ t.is .kwVar
  | .statement, tokens => BeginsStatement tokens
  | .exprStmt, tokens => BeginsExpression tokens
  | .block, tokens => ∃ t rest, tokens = t :: rest ∧ t.is .leftBrace
  | .parameterList, tokens => ∃ t rest, tokens = t :: rest ∧ t.is .leftParen
  | .names, tokens => ∃ t rest, tokens = t :: rest ∧ t.isIdentifier
  | .expression, tokens => BeginsExpression tokens
  | .expressions, tokens => BeginsExpression tokens
  | .ternary, tokens => BeginsWith operandSymbols tokens
  | .assignment, tokens => BeginsWith operandSymbols tokens
  | .tier _, tokens => BeginsWith operandSymbols tokens
  | .call, tokens => BeginsWith primarySymbols tokens
  | .primary, tokens => BeginsWith primarySymbols tokens
  | .items, tokens => ∃ t rest, tokens = t :: rest ∧ ¬t.is .rightBracket
  | _, _ => True

theorem beginsWith_of_is (h : t.is s) (hs : s ∈ symbols) : BeginsWith symbols (t :: rest) := by
  refine ⟨t, rest, rfl, fun s' h' => ?_⟩
  rw [is_iff] at h h'
  cases h.symm.trans h'
  exact hs

theorem beginsWith_of_isIdentifier (h : t.isIdentifier) : BeginsWith symbols (t :: rest) := by
  refine ⟨t, rest, rfl, fun s h' => ?_⟩
  rw [isIdentifier_iff] at h
  rw [is_iff, h] at h'
  cases h'

theorem beginsWith_of_literal? {value : Literal} (h : literal? t = some value) :
    BeginsWith literalSymbols (t :: rest) := by
  refine ⟨t, rest, rfl, fun s h' => ?_⟩
  rw [is_iff] at h'
  simp only [literal?, h'] at h
  cases s <;> first | decide | cases h

theorem BeginsWith.mono {symbols more : List Symbol} (h : BeginsWith symbols tokens) (hsub : symbols ⊆ more) :
    BeginsWith more tokens := by
  obtain ⟨t, rest, rfl, ht⟩ := h
  exact ⟨t, rest, rfl, fun s hs => hsub (ht s hs)⟩

theorem BeginsWith.notAhead (h : BeginsWith symbols tokens) (hs : s ∉ symbols) : NotAhead s tokens := by
  obtain ⟨t, rest, rfl, ht⟩ := h
  intro t' rest' htokens hs'
  cases htokens
  exact hs (ht s hs')

theorem not_is_of_is {s s' : Symbol} (h : t.is s) (hne : s ≠ s') : ¬t.is s' := fun h' => by
  rw [is_iff] at h h'
  exact hne (by cases h.symm.trans h'; rfl)

theorem not_is_of_isIdentifier (h : t.isIdentifier) (s : Symbol) : ¬t.is s := fun h' => by
  rw [isIdentifier_iff] at h
  rw [is_iff, h] at h'
  cases h'

/-- An expression begins with no symbol but those of operands and the keyword of a function. -/
theorem BeginsExpression.notAhead (h : BeginsExpression tokens) (hs : s ∉ Symbol.kwFun :: operandSymbols) :
    NotAhead s tokens := by
  obtain ⟨hfun, hoperand⟩ : s ≠ .kwFun ∧ s ∉ operandSymbols := by simpa using hs
  rcases h with h | ⟨_, _, _, rfl, hkeyword, -⟩
  · exact h.notAhead hoperand
  · intro t rest ht
    cases ht
    exact not_is_of_is hkeyword (Ne.symm hfun)

theorem BeginsStatement.notAhead (h : BeginsStatement tokens)
    (hs : s ∉ Symbol.kwFun :: operandSymbols ++ statementSymbols) : NotAhead s tokens := by
  obtain ⟨hexpression, hstatement⟩ : s ∉ Symbol.kwFun :: operandSymbols ∧ s ∉ statementSymbols := by
    simpa only [List.mem_append, not_or] using hs
  rcases h with h | ⟨t, rest, rfl, s', hs', ht⟩
  · exact h.notAhead hexpression
  · intro t' rest' htokens
    cases htokens
    exact not_is_of_is ht fun heq => hstatement (heq ▸ hs')

theorem Derives.begins {n : Nonterminal} {p q : Point} {v : n.Tree} (h : Derives n p v q) : n.Begins p.ahead := by
  induction h with
  | baseClass hkeyword => exact ⟨_, _, rfl, not_is_of_is hkeyword (by decide)⟩
  | subclass hkeyword => exact ⟨_, _, rfl, not_is_of_is hkeyword (by decide)⟩
  | function hkeyword => exact ⟨_, _, rfl, not_is_of_is hkeyword (by decide)⟩
  | «variable» _ ih =>
    obtain ⟨t, rest, ht, hvar⟩ := ih
    exact ⟨t, rest, ht, not_is_of_is hvar (by decide)⟩
  | library hkeyword => exact ⟨_, _, rfl, not_is_of_is hkeyword (by decide)⟩
  | plain _ ih =>
    have hnot := BeginsStatement.notAhead (s := .rightBrace) ih (by decide)
    rcases ih with (⟨t, rest, ht, -⟩ | ⟨t, o, rest, ht, -⟩) | ⟨t, rest, ht, -⟩
    · exact ⟨t, rest, ht, hnot t rest ht⟩
    · exact ⟨t, o :: rest, ht, hnot t _ ht⟩
    · exact ⟨t, rest, ht, hnot t rest ht⟩
  | bareMethod hname => exact ⟨_, _, rfl, hname⟩
  | method hname => exact ⟨_, _, rfl, hname⟩
  | noParameters hopening => exact ⟨_, _, rfl, hopening⟩
  | parameters hopening => exact ⟨_, _, rfl, hopening⟩
  | lastName hname => exact ⟨_, _, rfl, hname⟩
  | moreNames hname => exact ⟨_, _, rfl, hname⟩
  | bareVariable hkeyword => exact ⟨_, _, rfl, hkeyword⟩
  | initializedVariable hkeyword => exact ⟨_, _, rfl, hkeyword⟩
  | exprStmt _ _ ih => exact ih
  | expressionStatement _ ih => exact Or.inl ih
  | print hkeyword => exact Or.inr ⟨_, _, rfl, _, by decide, hkeyword⟩
  | loop hkeyword => exact Or.inr ⟨_, _, rfl, _, by decide, hkeyword⟩
  | whileLoop hkeyword => exact Or.inr ⟨_, _, rfl, _, by decide, hkeyword⟩
  | ifOnly hkeyword => exact Or.inr ⟨_, _, rfl, _, by decide, hkeyword⟩
  | ifElse hkeyword => exact Or.inr ⟨_, _, rfl, _, by decide, hkeyword⟩
  | breakLoop hkeyword => exact Or.inr ⟨_, _, rfl, _, by decide, hkeyword⟩
  | returnValue hkeyword => exact Or.inr ⟨_, _, rfl, _, by decide, hkeyword⟩
  | inner _ ih =>
    obtain ⟨t, rest, ht, hbrace⟩ := ih
    exact Or.inr ⟨t, rest, ht, _, by decide, hbrace⟩
  | block hopening => exact ⟨_, _, rfl, hopening⟩
  | lambda hkeyword _ _ ih =>
    obtain ⟨opening, rest, ht, hopening⟩ := ih
    exact Or.inr ⟨_, opening, rest, congrArg _ ht, hkeyword, hopening⟩
  | ternary _ ih => exact Or.inl ih
  | lastExpression _ ih => exact ih
  | moreExpressions _ _ _ ih => exact ih
  | unconditional _ ih => exact ih
  | conditional _ _ _ _ _ ih => exact ih
  | assignName hname => exact beginsWith_of_isIdentifier hname
  | assignProperty _ _ _ _ _ ih => exact ih.mono (by decide)
  | unassigned _ ih => exact ih
  | chain _ _ _ ih => exact ih
  | unary hoperator =>
    exact hoperator.elim (beginsWith_of_is · (by decide)) (beginsWith_of_is · (by decide))
  | operand _ ih => exact ih.mono (by decide)
  | call _ _ ih => exact ih
  | literal hvalue => exact (beginsWith_of_literal? hvalue).mono (by decide)
  | this hkeyword => exact beginsWith_of_is hkeyword (by decide)
  | emptyArray hbracket => exact beginsWith_of_is hbracket (by decide)
  | array hbracket => exact beginsWith_of_is hbracket (by decide)
  | global hkeyword => exact beginsWith_of_is hkeyword (by decide)
  | increment hname => exact beginsWith_of_isIdentifier hname
  | subscript hname => exact beginsWith_of_isIdentifier hname
  | name hname => exact beginsWith_of_isIdentifier hname
  | grouping hopening => exact beginsWith_of_is hopening (by decide)
  | lastItem hvalue => exact ⟨_, _, rfl, (beginsWith_of_literal? hvalue).notAhead (by decide) _ [] rfl⟩
  | moreItems hvalue => exact ⟨_, _, rfl, (beginsWith_of_literal? hvalue).notAhead (by decide) _ [] rfl⟩
  | lastNegative hminus => exact ⟨_, _, rfl, not_is_of_is hminus (by decide)⟩
  | moreNegatives hminus => exact ⟨_, _, rfl, not_is_of_is hminus (by decide)⟩
  | noDeclaration | moreDeclarations | noMethod | moreMethods | noLoopStart | loopVariable | loopExpression
  | noExpression | someExpression | noOperation | moreOperations | noSuffix | callNone | callSome | property => trivial

/-! ### Ends -/

/-- The tokens begin with none of the symbols. -/
def Stops (symbols : List Symbol) (tokens : List Token) : Prop :=
  ∀ t rest, tokens = t :: rest → ∀ s ∈ symbols, ¬t.is s

theorem Stops.notAhead (h : Stops symbols tokens) (hs : s ∈ symbols) :
    NotAhead s tokens := fun t rest ht => h t rest ht s hs

theorem Stops.mono {symbols fewer : List Symbol} (h : Stops symbols tokens) (hsub : fewer ⊆ symbols) :
    Stops fewer tokens := fun t rest ht s hs => h t rest ht s (hsub hs)

theorem stops_of_is (h : t.is s) (hs : s ∉ symbols) : Stops symbols (t :: rest) := by
  intro t' rest' ht s' hs'
  cases ht
  exact not_is_of_is h fun heq => hs (heq ▸ hs')

theorem notAhead_of_is {s s' : Symbol} (h : t.is s) (hne : s ≠ s') : NotAhead s' (t :: rest) := by
  intro t' rest' ht
  cases ht
  exact not_is_of_is h hne

/-- The levels that bind tighter. -/
def Level.tighterLevels : Level → List Level
  | or => [and, equality, comparison, sum, product]
  | and => [equality, comparison, sum, product]
  | equality => [comparison, sum, product]
  | comparison => [sum, product]
  | sum => [product]
  | product => []

/-- The symbols that extend a call. -/
def callExtensions : List Symbol := [.leftBracket, .leftParen, .dot]

/-- The symbols that extend an operand of the level. -/
def Level.operandExtensions (level : Level) : List Symbol :=
  level.tighterLevels.flatMap operators ++ callExtensions

/-- The symbols that extend a chain of the level. -/
def Level.extensions (level : Level) : List Symbol :=
  level.operators ++ level.operandExtensions

/-- The symbols that extend an assignment. -/
def assignmentExtensions : List Symbol := .equal :: Level.or.extensions

/-- The symbols that extend an expression. -/
def expressionExtensions : List Symbol := .question :: assignmentExtensions

/-- What follows a phrase so that it cannot be extended. -/
def Follow : Phrase → List Token → Prop
  | .program, tokens => tokens = []
  | .body, tokens => ∀ t rest, tokens = t :: rest → t.is .rightBrace
  | .methods, tokens => ∀ t rest, tokens = t :: rest → t.is .rightBrace
  | .parameters _, tokens => Stops [.comma] tokens
  | .expression, tokens => Stops expressionExtensions tokens
  | .furtherValues, tokens => Stops (.comma :: expressionExtensions) tokens
  | .assignment, tokens => Stops assignmentExtensions tokens
  | .operand level, tokens => Stops level.extensions tokens
  | .operators level _, tokens => Stops level.extensions tokens
  | .unary, tokens => Stops callExtensions tokens
  | .suffixes _, tokens => Stops callExtensions tokens
  | .arguments _, tokens => Stops (.comma :: expressionExtensions) tokens
  | .items, tokens => tokens ≠ [] ∧ Stops [.comma] tokens
  | _, _ => True

section Productions
variable {rules : Rules}
  (hr : ∀ phrase x v y, Meaning phrase x v y → Follow phrase y.ahead → Gives (rules phrase) x v y)
include hr

/-! ### Routines -/

variable {tokens params rest : List Token} {i j : NodeId} {t : Token} {s : Stmt}

theorem gives_block {opening : Token} {body : List Stmt} {y : Point} (h : Derives .block ⟨opening :: tokens, i⟩ body y)
    : Gives (block rules) ⟨tokens, i⟩ body y := by
  cases h with
  | block _ hbody hclosing =>
    refine .bind (hr .body _ _ _ hbody ?_) (.expect_bind hclosing .pure)
    rintro t rest ht
    cases ht
    exact hclosing

theorem gives_parameterList {opening : Token} {y : Point} (h : Derives .parameterList ⟨opening :: tokens, i⟩ params y) :
    Gives (parameterList rules) ⟨tokens, i⟩ params y := by
  cases h with
  | noParameters _ hclosing => exact .ahead_yes_bind hclosing (.expect_bind hclosing .pure)
  | parameters _ hparams hlen hclosing =>
    obtain ⟨name, rest, rfl, hname⟩ := hparams.begins
    refine .ahead_no_bind ?_ ?_
    · intro t rest ht
      cases ht
      exact not_is_of_isIdentifier hname _
    · exact .bind (hr (.parameters 0) _ _ _ ⟨hparams, by simpa using hlen⟩ (stops_of_is hclosing (by decide)))
        (.expect_bind hclosing .pure)

theorem gives_parameters {count : Nat} {x y : Point} (h : Meaning (.parameters count) x params y)
    (hend : Follow (.parameters count) y.ahead) : Gives (parameters rules count) x params y := by
  obtain ⟨hnames, hlen⟩ := h
  unfold parameters
  cases hnames with
  | lastName hname =>
    rw [if_neg (by simp only [List.length_singleton] at hlen; simp only [arityLimit]; omega)]
    exact .bind (.expectIf hname)
      (.accept_none_bind (Stops.notAhead hend (by decide)) .pure)
  | moreNames hname hcomma hrest =>
    simp only [List.length_cons] at hlen
    rw [if_neg (by simp only [arityLimit]; omega)]
    refine .bind (.expectIf hname) (.accept_some_bind hcomma ?_)
    exact .bind (hr (.parameters (count + 1)) _ _ _ ⟨hrest, by omega⟩ hend) .pure

theorem gives_routine {kind : RoutineKind} {name : Token} {q y : Point} {body : List Stmt} (hname : name.isIdentifier)
    (hparams : Derives .parameterList ⟨tokens, i⟩ params q) (hbody : Derives .block q body y) :
    Gives (routine rules kind) ⟨name :: tokens, i⟩ ⟨name, params, body⟩ y := by
  obtain ⟨opening, rest, rfl, hopening⟩ := hparams.begins
  obtain ⟨ahead, j⟩ := q
  obtain ⟨brace, rest', rfl, hbrace⟩ := hbody.begins
  refine .bind (.expectIf hname) (.ahead_no_bind (notAhead_of_is hopening (by decide)) ?_)
  dsimp only
  rw [if_neg fun h => Bool.false_ne_true h.2]
  refine .expect_bind hopening (.bind (gives_parameterList hr hparams) ?_)
  exact .expect_bind hbrace (.bind (gives_block hr hbody) .pure)

theorem gives_method {x y : Point} {f : Routine} (h : Derives .method x f y) : Gives (routine rules .method) x f y := by
  cases h with
  | bareMethod hname hbody =>
    obtain ⟨brace, rest, rfl, hbrace⟩ := hbody.begins
    refine .bind (.expectIf hname) (.ahead_yes_bind hbrace ?_)
    exact .expect_bind hbrace (.bind (gives_block hr hbody) .pure)
  | method hname hparams hbody => exact gives_routine hr hname hparams hbody

/-! ### Statements -/

/-- An expression is read if a symbol follows that extends none. -/
theorem gives_expression_before {x : Point} {e : Expr} {s : Symbol} (h : Derives .expression x e ⟨t :: rest, j⟩)
    (ht : t.is s) (hs : s ∉ expressionExtensions) : Gives (rules .expression) x e ⟨t :: rest, j⟩ :=
  hr .expression _ _ _ h (stops_of_is ht hs)

theorem gives_varDeclaration {keyword : Token} {y : Point} (h : Derives .varDecl ⟨keyword :: tokens, i⟩ s y) :
    Gives (varDeclaration rules) ⟨tokens, i⟩ s y := by
  cases h with
  | bareVariable _ hname hsemicolon =>
    refine .bind (.expectIf hname) ?_
    exact .accept_none_bind (notAhead_of_is hsemicolon (by decide)) (.expect_bind hsemicolon .pure)
  | initializedVariable _ hname hequals hvalue hsemicolon =>
    refine .bind (.expectIf hname) (.accept_some_bind hequals ?_)
    exact .bind (gives_expression_before hr hvalue hsemicolon (by decide))
      (.expect_bind hsemicolon .pure)

theorem gives_expressionStatement {x y : Point} (h : Derives .exprStmt x s y) :
    Gives (expressionStatement rules) x s y := by
  cases h with
  | exprStmt hvalue hsemicolon =>
    exact .bind (gives_expression_before hr hvalue hsemicolon (by decide))
      (.expect_bind hsemicolon .pure)

theorem gives_loopInitializer {x y : Point} {s : Option Stmt} (h : Derives .loopStart x s y) :
    Gives (loopInitializer rules) x s y := by
  cases h with
  | noLoopStart hsemicolon => exact .accept_some_bind hsemicolon .pure
  | loopVariable h =>
    obtain ⟨ahead, i⟩ := x
    obtain ⟨keyword, rest, rfl, hkeyword⟩ := h.begins
    refine .accept_none_bind (notAhead_of_is hkeyword (by decide)) ?_
    exact .accept_some_bind hkeyword (.map (gives_varDeclaration hr h))
  | loopExpression h =>
    refine .accept_none_bind (BeginsExpression.notAhead h.begins (by decide)) ?_
    refine .accept_none_bind (BeginsExpression.notAhead h.begins (by decide)) ?_
    exact .map (gives_expressionStatement hr h)

theorem gives_expressionUnless {x : Point} {e : Option Expr} {s : Symbol}
    (h : Derives .optionalExpression x e ⟨t :: rest, j⟩) (ht : t.is s) (hs : s ∉ expressionExtensions)
    (hs' : s ∉ Symbol.kwFun :: operandSymbols) : Gives (expressionUnless rules s) x e ⟨t :: rest, j⟩ := by
  cases h with
  | noExpression => exact .ahead_yes_bind ht .pure
  | someExpression h =>
    refine .ahead_no_bind (BeginsExpression.notAhead h.begins hs') ?_
    exact .bind (gives_expression_before hr h ht hs) .pure

/-- The expressions of a list are read as the first one and those that follow it. -/
theorem gives_expressions {x : Point} {values : List Expr} (h : Derives .expressions x values ⟨t :: rest, j⟩)
    (ht : t.is .semicolon) : ∃ first others mid, values = first :: others ∧ Gives (rules .expression) x first mid ∧
      Gives (rules .furtherValues) mid others ⟨t :: rest, j⟩ := by
  have hend : Stops (.comma :: expressionExtensions) (t :: rest) := stops_of_is ht (by decide)
  cases h with
  | lastExpression h =>
    exact ⟨_, _, _, rfl, gives_expression_before hr h ht (by decide),
      hr .furtherValues _ _ _ (Or.inl ⟨rfl, rfl⟩) hend⟩
  | moreExpressions h hcomma hrest =>
    exact ⟨_, _, _, rfl, gives_expression_before hr h hcomma (by decide),
      hr .furtherValues _ _ _ (Or.inr ⟨_, _, _, rfl, hcomma, hrest⟩) hend⟩

theorem gives_statement {x y : Point} (h : Derives .statement x s y) : Gives (statement rules) x s y := by
  -- A keyword lets each alternative before its own one pass.
  have skip {f : Option Token → Production Stmt} {a b : Symbol} {t : Token} {rest : List Token} {i : NodeId}
      (ht : t.is a) (hab : a ≠ b) (hf : Gives (f none) ⟨t :: rest, i⟩ s y) :
      Gives (Production.accept b >>= f) ⟨t :: rest, i⟩ s y :=
    .accept_none_bind (notAhead_of_is ht hab) hf
  cases h with
  | loop hkeyword hopening hinitializer hcondition hsemicolon hincrement hclosing hbody =>
    rw [← loopTree_eq_elim]
    refine .accept_some_bind hkeyword (.expect_bind hopening ?_)
    refine .bind (gives_loopInitializer hr hinitializer) ?_
    refine .bind (gives_expressionUnless hr hcondition hsemicolon (by decide) (by decide)) ?_
    refine .expect_bind hsemicolon ?_
    refine .bind (gives_expressionUnless hr hincrement hclosing (by decide) (by decide)) ?_
    exact .expect_bind hclosing (.bind (hr .statement _ _ _ hbody trivial) .pure)
  | ifOnly hkeyword hopening hcondition hclosing hyes hnot =>
    refine skip hkeyword (by decide) (.accept_some_bind hkeyword (.expect_bind hopening ?_))
    refine .bind (gives_expression_before hr hcondition hclosing (by decide)) (.expect_bind hclosing ?_)
    exact .bind (hr .statement _ _ _ hyes trivial) (.accept_none_bind hnot .pure)
  | ifElse hkeyword hopening hcondition hclosing hyes hotherwise hno =>
    refine skip hkeyword (by decide) (.accept_some_bind hkeyword (.expect_bind hopening ?_))
    refine .bind (gives_expression_before hr hcondition hclosing (by decide)) (.expect_bind hclosing ?_)
    refine .bind (hr .statement _ _ _ hyes trivial) (.accept_some_bind hotherwise ?_)
    exact .bind (hr .statement _ _ _ hno trivial) .pure
  | whileLoop hkeyword hopening hcondition hclosing hbody =>
    refine skip hkeyword (by decide) (skip hkeyword (by decide) (.accept_some_bind hkeyword ?_))
    refine .expect_bind hopening (.bind (gives_expression_before hr hcondition hclosing (by decide)) ?_)
    exact .expect_bind hclosing (.bind (hr .statement _ _ _ hbody trivial) .pure)
  | breakLoop hkeyword hsemicolon =>
    refine skip hkeyword (by decide) (skip hkeyword (by decide) (skip hkeyword (by decide) ?_))
    exact .accept_some_bind hkeyword (.expect_bind hsemicolon .pure)
  | returnValue hkeyword hvalue hsemicolon =>
    refine skip hkeyword (by decide) (skip hkeyword (by decide) (skip hkeyword (by decide) ?_))
    refine skip hkeyword (by decide) (.accept_some_bind hkeyword ?_)
    refine .bind (gives_expressionUnless hr hvalue hsemicolon (by decide) (by decide)) ?_
    exact .expect_bind hsemicolon .pure
  | inner h =>
    obtain ⟨ahead, i⟩ := x
    obtain ⟨brace, rest, rfl, hbrace⟩ := h.begins
    refine skip hbrace (by decide) (skip hbrace (by decide) (skip hbrace (by decide) ?_))
    refine skip hbrace (by decide) (skip hbrace (by decide) (.accept_some_bind hbrace ?_))
    exact .map (gives_block hr h)
  | print hkeyword hvalues hsemicolon =>
    refine skip hkeyword (by decide) (skip hkeyword (by decide) (skip hkeyword (by decide) ?_))
    refine skip hkeyword (by decide) (skip hkeyword (by decide) (skip hkeyword (by decide) ?_))
    obtain ⟨first, others, mid, rfl, hfirst, hothers⟩ := gives_expressions hr hvalues hsemicolon
    refine .accept_some_bind hkeyword (.bind hfirst (.bind hothers ?_))
    exact .expect_bind hsemicolon .pure
  | expressionStatement h =>
    have hnot : ∀ s ∈ statementSymbols, NotAhead s x.ahead := fun s hs =>
      BeginsExpression.notAhead h.begins (by revert s; decide)
    refine .accept_none_bind (hnot _ (by decide)) (.accept_none_bind (hnot _ (by decide)) ?_)
    refine .accept_none_bind (hnot _ (by decide)) (.accept_none_bind (hnot _ (by decide)) ?_)
    refine .accept_none_bind (hnot _ (by decide)) (.accept_none_bind (hnot _ (by decide)) ?_)
    exact .accept_none_bind (hnot _ (by decide)) (gives_expressionStatement hr h)

/-! ### Declarations -/

omit hr in
/-- Where a closing brace or the end follows, a list of declarations or methods is at its end. -/
theorem gives_closes {x : Point} (h : ∀ t rest, x.ahead = t :: rest → t.is .rightBrace) :
    Gives (Production.look fun c => c.atEnd || c.check (·.is .rightBrace)) x true x := by
  refine .look fun c hc => ?_
  subst hc
  cases ha : c.ahead with
  | nil => simp [Cursor.atEnd, ha]
  | cons t rest => simp [Cursor.check, ha, h t rest ha]

omit hr in
theorem gives_open {t : Token} {rest : List Token} {i : NodeId} (h : ¬t.is .rightBrace) :
    Gives (Production.look fun c => c.atEnd || c.check (·.is .rightBrace)) ⟨t :: rest, i⟩ false ⟨t :: rest, i⟩ := by
  refine .look fun c hc => ?_
  have ha : c.ahead = t :: rest := congrArg Point.ahead hc
  simpa [Cursor.atEnd, Cursor.check, ha] using h

theorem gives_methods {x y : Point} {methods : List Routine} (h : Derives .methods x methods y)
    (hend : Follow .methods y.ahead) : Gives (Grammar.methods rules) x methods y := by
  cases h with
  | noMethod => exact .bind (gives_closes hend) .pure
  | moreMethods hfirst hrest =>
    obtain ⟨ahead, i⟩ := x
    obtain ⟨name, rest, rfl, hname⟩ := hfirst.begins
    refine .bind (gives_open (not_is_of_isIdentifier hname _)) (.bind (gives_method hr hfirst) ?_)
    exact .bind (hr .methods _ _ _ hrest hend) .pure

/-- The methods of a class and the brace behind them. -/
theorem gives_classBody {opening closing : Token} {tokens after : List Token} {i j : NodeId} {methods : List Routine}
    {tree : List Routine → Stmt} (hopening : opening.is .leftBrace)
    (hmethods : Derives .methods ⟨tokens, i⟩ methods ⟨closing :: after, j⟩) (hclosing : closing.is .rightBrace) :
    Gives (do
      discard (Production.expect .leftBrace .classBody)
      let methods : List Routine ← rules .methods
      discard (Production.expect .rightBrace .classEnd)
      return tree methods) ⟨opening :: tokens, i⟩ (tree methods) ⟨after, j⟩ := by
  refine .expect_bind hopening (.bind (hr .methods _ _ _ hmethods ?_) ?_)
  · intro t rest ht
    cases ht
    exact hclosing
  · exact .expect_bind hclosing .pure

theorem gives_declared {x y : Point} {s : Stmt} (h : Derives .declaration x s y) : Gives (declared rules) x s y := by
  -- The keyword of a function declares one only before a name.
  have notFunction {f : Bool → Production Stmt} (hx : ∀ t rest, x.ahead = t :: rest → t.is .kwFun →
      ∀ u rest', rest = u :: rest' → ¬u.isIdentifier) (hf : Gives (f false) x s y) :
      Gives (Production.look (fun c => c.check (·.is .kwFun) && c.checkSecond Token.isIdentifier) >>= f) x s y := by
    refine .bind (.look fun c hc => ?_) hf
    subst hc
    cases ha : c.ahead with
    | nil => simp [Cursor.check, ha]
    | cons t rest =>
      cases rest with
      | nil => simp [Cursor.checkSecond, ha]
      | cons u rest' => simpa [Cursor.check, Cursor.checkSecond, ha] using fun ht => hx t _ ha ht u rest' rfl
  cases h with
  | baseClass hkeyword hname hopening hmethods hclosing =>
    refine .accept_some_bind hkeyword (.bind (.expectIf hname) ?_)
    exact .accept_none_bind (notAhead_of_is hopening (by decide))
      (gives_classBody hr hopening hmethods hclosing)
  | subclass hkeyword hname hless hparent hopening hmethods hclosing =>
    refine .accept_some_bind hkeyword (.bind (.expectIf hname) ?_)
    refine .accept_some_bind hless (.bind (.expectIf hparent) (.bind .fresh ?_))
    exact gives_classBody hr hopening hmethods hclosing
  | function hkeyword hname hparams hbody =>
    refine .accept_none_bind (notAhead_of_is hkeyword (by decide)) ?_
    refine .bind (b := true) (.look fun c hc => ?_) ?_
    · have ha : c.ahead = _ := congrArg Point.ahead hc
      simp [Cursor.check, Cursor.checkSecond, ha, hkeyword, hname]
    · exact .discard_bind .advance (.bind (gives_routine hr hname hparams hbody) .pure)
  | «variable» h =>
    obtain ⟨ahead, i⟩ := x
    obtain ⟨keyword, rest, rfl, hkeyword⟩ := h.begins
    refine .accept_none_bind (notAhead_of_is hkeyword (by decide)) (notFunction ?_ ?_)
    · intro t rest ht hfun
      cases ht
      exact absurd hfun (not_is_of_is hkeyword (by decide))
    · exact .accept_some_bind hkeyword (gives_varDeclaration hr h)
  | library hkeyword hpath hsemicolon =>
    refine .accept_none_bind (notAhead_of_is hkeyword (by decide)) (notFunction ?_ ?_)
    · intro t rest ht hfun
      cases ht
      exact absurd hfun (not_is_of_is hkeyword (by decide))
    · refine .accept_none_bind (notAhead_of_is hkeyword (by decide)) (.accept_some_bind hkeyword ?_)
      exact .bind (.expectIf (isPath_iff.mpr hpath)) (.expect_bind hsemicolon .pure)
  | plain h =>
    have hbegin : BeginsStatement x.ahead := h.begins
    refine .accept_none_bind (hbegin.notAhead (by decide)) (notFunction ?_ ?_)
    · intro t rest ht hfun u rest' hu
      rcases hbegin with (hoperand | ⟨_, opening, _, ht', -, hopening⟩) | ⟨t', _, ht', a, ha, hs⟩
      · exact absurd hfun (hoperand.notAhead (by decide) t rest ht)
      · cases ht.symm.trans ht'
        cases hu
        exact fun hident => not_is_of_isIdentifier hident _ hopening
      · cases ht.symm.trans ht'
        exact absurd hfun (not_is_of_is hs (by rintro rfl; revert ha; decide))
    · refine .accept_none_bind (hbegin.notAhead (by decide)) ?_
      refine .accept_none_bind (hbegin.notAhead (by decide)) ?_
      exact hr .statement _ _ _ h trivial

theorem gives_declaration {x y : Point} {s : Stmt} (h : Derives .declaration x s y) :
    Gives (declaration rules) x (some s) y := fun c hc => by
  unfold declaration
  rcases gives_declared hr h c hc with hd | ⟨d, hd, hpoint, herrors⟩
  · exact Or.inl (by rw [hd])
  · exact Or.inr ⟨d, by rw [hd], hpoint, herrors⟩

theorem gives_body {x y : Point} {body : List Stmt} (h : Derives .declarations x body y)
    (hend : Follow .body y.ahead) : Gives (Grammar.body rules) x body y := by
  cases h with
  | noDeclaration => exact .bind (gives_closes hend) .pure
  | moreDeclarations hfirst hrest =>
    obtain ⟨ahead, i⟩ := x
    obtain ⟨t, rest, rfl, ht⟩ := hfirst.begins
    refine .bind (gives_open ht) (.bind (hr .declaration _ (some _) _ ⟨_, rfl, hfirst⟩ trivial) ?_)
    exact .bind (hr .body _ _ _ hrest hend) .pure

theorem gives_program {x y : Point} {body : List Stmt} (h : Derives .declarations x body y) (hend : y.ahead = []) :
    Gives (program rules) x body y := by
  cases h with
  | noDeclaration =>
    refine .bind (b := true) (.look fun c hc => ?_) .pure
    subst hc
    simpa [Cursor.atEnd] using hend
  | moreDeclarations hfirst hrest =>
    obtain ⟨ahead, i⟩ := x
    obtain ⟨t, rest, rfl, -⟩ := hfirst.begins
    refine .bind (b := false) (.look fun c hc => ?_) ?_
    · have ha : c.ahead = t :: rest := congrArg Point.ahead hc
      simp [Cursor.atEnd, ha]
    · refine .bind (hr .declaration _ (some _) _ ⟨_, rfl, hfirst⟩ trivial) ?_
      exact .bind (hr .program _ _ _ ⟨hrest, hend⟩ hend) .pure

/-! ### Expressions -/

theorem gives_furtherValues {x y : Point} {values : List Expr} (h : Meaning .furtherValues x values y)
    (hend : Follow .furtherValues y.ahead) : Gives (furtherValues rules) x values y := by
  rcases h with ⟨rfl, rfl⟩ | ⟨comma, tokens, i, rfl, hcomma, h⟩
  · exact .accept_none_bind (Stops.notAhead hend (by decide)) .pure
  · refine .accept_some_bind hcomma ?_
    cases h with
    | lastExpression h =>
      refine .bind (hr .expression _ _ _ h (Stops.mono hend (by simp))) ?_
      exact .bind (hr .furtherValues _ _ _ (Or.inl ⟨rfl, rfl⟩) hend) .pure
    | moreExpressions h hcomma' hrest =>
      refine .bind (gives_expression_before hr h hcomma' (by decide)) ?_
      exact .bind (hr .furtherValues _ _ _ (Or.inr ⟨_, _, _, rfl, hcomma', hrest⟩) hend) .pure

theorem gives_expression {x y : Point} {e : Expr} (h : Derives .expression x e y)
    (hend : Stops expressionExtensions y.ahead) : Gives (expression rules) x e y := by
  cases h with
  | lambda hkeyword hparams hbody =>
    rename_i q params body
    obtain ⟨opening, rest, rfl, hopening⟩ := hparams.begins
    obtain ⟨ahead, j⟩ := q
    obtain ⟨brace, rest', rfl, hbrace⟩ := hbody.begins
    refine .accept_some_bind hkeyword (.expect_bind hopening ?_)
    refine .bind (gives_parameterList hr hparams) (.expect_bind hbrace ?_)
    exact .bind (gives_block hr hbody) .pure
  | ternary h =>
    refine .accept_none_bind (BeginsWith.notAhead h.begins (by decide)) ?_
    cases h with
    | unconditional h =>
      refine .bind (hr .assignment _ _ _ h (hend.mono (by simp [expressionExtensions]))) ?_
      exact .accept_none_bind (hend.notAhead (by decide)) .pure
    | conditional hcondition hquestion hyes hcolon hno =>
      refine .bind (hr .assignment _ _ _ hcondition (stops_of_is hquestion (by decide))) ?_
      refine .accept_some_bind hquestion ?_
      refine .bind (hr (.operand .equality) _ _ _ hyes (stops_of_is hcolon (by decide))) ?_
      refine .expect_bind hcolon ?_
      exact .bind (hr (.operand .equality) _ _ _ hno (hend.mono (by decide))) .pure

omit hr in
/-- A call is an operand of every tier. -/
theorem Derives.logicOr {p q : Point} {e : Expr} (h : Derives .call p e q) : Derives (.tier .logicOr) p e q :=
  .chain .logicOr (.chain .logicAnd (.chain .equality (.chain .comparison (.chain .term (.chain .factor
    (.operand h) .noOperation) .noOperation) .noOperation) .noOperation) .noOperation) .noOperation

omit hr in
theorem noIncrement_of_is {t : Token} {rest : List Token} {s : Symbol} (h : t.is s) (hplus : s ≠ .plus)
    (hminus : s ≠ .minus) : NoIncrement (t :: rest) := by
  rintro first second rest' ht ⟨⟨hfirst, -⟩ | ⟨hfirst, -⟩, -⟩
  · cases ht
    exact not_is_of_is h hplus hfirst
  · cases ht
    exact not_is_of_is h hminus hfirst

omit hr in
theorem Derives.logicOr_var {name t : Token} {rest : List Token} {i : NodeId} {s : Symbol} (hname : name.isIdentifier)
    (ht : t.is s) (hplus : s ≠ .plus) (hminus : s ≠ .minus) :
    Derives (.tier .logicOr) ⟨name :: t :: rest, i⟩ (.var i name) ⟨t :: rest, i + 1⟩ :=
  (Derives.call (.name hname (noIncrement_of_is ht hplus hminus)) .noSuffix).logicOr

omit hr in
theorem Derives.logicOr_get {p : Point} {object : Expr} {dot name : Token} {rest : List Token} {i : NodeId}
    (h : Derives .call p object ⟨dot :: name :: rest, i⟩) (hdot : dot.is .dot) (hname : name.isIdentifier) :
    Derives (.tier .logicOr) p (.get object name) ⟨rest, i⟩ := by
  cases h with
  | call hcallee hsuffixes =>
    have hall := Derives.suffixes_concat (q := ⟨rest, i⟩).mpr ⟨hname, dot, hdot, hsuffixes⟩
    have hcall := (Derives.call hcallee hall).logicOr
    rw [List.foldl_append] at hcall
    exact hcall

theorem gives_assignment {x y : Point} {e : Expr} (h : Derives .assignment x e y)
    (hend : Stops assignmentExtensions y.ahead) : Gives (assignment rules) x e y := by
  cases h with
  | assignName hname hequals hvalue =>
    refine .bind (hr (.operand .or) _ _ _ (Derives.logicOr_var hname hequals (by decide) (by decide))
      (stops_of_is hequals (by decide))) ?_
    refine .accept_some_bind hequals (.bind (hr .assignment _ _ _ hvalue hend) ?_)
    exact .bind .fresh .pure
  | assignProperty hobject hdot hname hequals hvalue =>
    have hget := hobject.logicOr_get hdot hname
    refine .bind (hr (.operand .or) _ _ _ hget (stops_of_is hequals (by decide))) ?_
    exact .accept_some_bind hequals (.bind (hr .assignment _ _ _ hvalue hend) .pure)
  | unassigned h =>
    refine .bind (hr (.operand .or) _ _ _ h (hend.mono (by simp [assignmentExtensions]))) ?_
    exact .accept_none_bind (hend.notAhead (by decide)) .pure

theorem gives_tighter {level : Level} {x y : Point} {e : Expr} (h : Derives (.tier level.operandTier) x e y)
    (hend : Stops level.operandExtensions y.ahead) : Gives (tighter rules level) x e y := by
  cases level with
  | or => exact hr (.operand .and) _ _ _ h hend
  | and => exact hr (.operand .equality) _ _ _ h hend
  | equality => exact hr (.operand .comparison) _ _ _ h hend
  | comparison => exact hr (.operand .sum) _ _ _ h hend
  | sum => exact hr (.operand .product) _ _ _ h hend
  | product => exact hr .unary _ _ _ h hend

omit hr in
/-- The operators of a tier, its operands and its trees are those of its level. -/
theorem Chain.eq_level {level : Level} {symbols : List Symbol} {operand : Tier} {combine : Expr → Token → Expr → Expr}
    (h : Chain level.tier symbols operand combine) :
    symbols = level.operators ∧ operand = level.operandTier ∧ combine = level.combine := by
  cases level <;> cases h <;> exact ⟨rfl, rfl, rfl⟩

omit hr in
theorem Level.not_mem_operandExtensions (level : Level) : ∀ s ∈ level.operators, s ∉ level.operandExtensions := by
  cases level <;> decide

omit hr in
/-- What follows an operand does not extend it: it is an operator of the level, or what follows the whole chain. -/
theorem Derives.stops_operand {level : Level} {x y : Point} {operations : List (Token × Expr)}
    (h : Derives (.operations level.tier) x operations y) (hend : Stops level.extensions y.ahead) :
    Stops level.operandExtensions x.ahead := by
  cases h with
  | noOperation => exact hend.mono (by simp [Level.extensions])
  | moreOperations hchain hoperator _ _ =>
    obtain ⟨rfl, -, -⟩ := hchain.eq_level
    obtain ⟨s, hs, hoperator⟩ := hoperator
    exact stops_of_is hoperator (level.not_mem_operandExtensions s hs)

theorem gives_operand {level : Level} {x y : Point} {e : Expr} (h : Derives (.tier level.tier) x e y)
    (hend : Stops level.extensions y.ahead) : Gives (operand rules level) x e y := by
  generalize ht : level.tier = t at h
  cases h with
  | unary _ _ => cases level <;> cases ht
  | operand _ => cases level <;> cases ht
  | chain hchain hfirst hoperations =>
    subst ht
    obtain ⟨rfl, rfl, rfl⟩ := hchain.eq_level
    refine .bind (gives_tighter hr hfirst (hoperations.stops_operand hend)) ?_
    exact hr (.operators level _) _ _ _ ⟨_, hoperations, rfl⟩ hend

theorem gives_operators {level : Level} {left : Expr} {x y : Point} {e : Expr}
    (h : Meaning (.operators level left) x e y) (hend : Stops level.extensions y.ahead) :
    Gives (operators rules level left) x e y := by
  obtain ⟨operations, h, rfl⟩ := h
  cases h with
  | noOperation =>
    refine .bind (.acceptIf_none fun t rest ht => ?_) .pure
    have := hend t rest ht
    simpa [Level.extensions] using fun s hs => by simpa using this s (List.mem_append_left _ hs)
  | moreOperations hchain hoperator hright hrest =>
    obtain ⟨rfl, rfl, rfl⟩ := hchain.eq_level
    refine .bind (.acceptIf_some (by simpa using hoperator)) ?_
    refine .bind (gives_tighter hr hright (hrest.stops_operand hend)) ?_
    exact hr (.operators level _) _ _ _ ⟨_, hrest, rfl⟩ hend

omit hr in
theorem gives_literalValue {t : Token} {rest : List Token} {i : NodeId} {value : Literal}
    (h : literal? t = some value) : Gives literalValue ⟨t :: rest, i⟩ value ⟨rest, i⟩ := fun c hc => by
  obtain ⟨ha, hi⟩ : c.ahead = t :: rest ∧ c.nextId = i := by simpa [Cursor.point] using hc
  refine Or.inr ⟨c.pass t rest, ?_, by simp [Cursor.point, hi], rfl⟩
  rw [literalValue_apply, Cursor.advance_of_ahead ha, Cursor.pass_last, h]

omit hr in
theorem gives_item {t : Token} {rest : List Token} {i : NodeId} {value : Literal}
    (h : literal? t = some value) : Gives item ⟨t :: rest, i⟩ value ⟨rest, i⟩ := by
  refine .bind (b := false) (.look fun c hc => ?_) (gives_literalValue h)
  have ha : c.ahead = t :: rest := congrArg Point.ahead hc
  have ht : ¬t.is .minus := (beginsWith_of_literal? h).notAhead (by decide) t rest rfl
  simp [Cursor.check, ha, ht]

variable {i : NodeId} {e : Expr}

omit hr in
theorem gives_negative {minus t : Token} {rest : List Token} {value : Float} (hminus : minus.is .minus)
    (h : t.kind = .number value) : Gives item ⟨minus :: t :: rest, i⟩ (.number (-value)) ⟨rest, i⟩ := by
  refine .bind (b := true) (.look fun c hc => ?_) ?_
  · have ha : c.ahead = minus :: t :: rest := congrArg Point.ahead hc
    simp [Cursor.check, Cursor.checkSecond, ha, hminus, isNumber, h]
  · have hvalue : literal? t = some (.number value) := by simp [literal?, h]
    exact .discard_bind .advance (.map (f := negated) (gives_literalValue hvalue))

theorem gives_items {x y : Point} {values : List Literal} (h : Derives .items x values y)
    (hend : Follow .items y.ahead) : Gives (items rules) x values y := by
  cases h with
  | lastItem hvalue =>
    exact .bind (gives_item hvalue) (.accept_none_bind (hend.2.notAhead (by decide)) .pure)
  | moreItems hvalue hcomma hrest =>
    refine .bind (gives_item hvalue) (.accept_some_bind hcomma ?_)
    exact .bind (hr .items _ _ _ (Or.inl hrest) hend) .pure
  | lastNegative hminus hkind =>
    exact .bind (gives_negative hminus hkind)
      (.accept_none_bind (hend.2.notAhead (by decide)) .pure)
  | moreNegatives hminus hkind hcomma hrest =>
    refine .bind (gives_negative hminus hkind) (.accept_some_bind hcomma ?_)
    exact .bind (hr .items _ _ _ (Or.inl hrest) hend) .pure

theorem gives_named {name : Token} {tokens : List Token} {y : Point} (h : Derives .primary ⟨name :: tokens, i⟩ e y)
    (hname : name.isIdentifier) (hend : NotAhead .leftBracket y.ahead) : Gives (named rules name) ⟨tokens, i⟩ e y := by
  have plain {f : Bool → Production Expr} (hnot : NoIncrement tokens) (hf : Gives (f false) ⟨tokens, i⟩ e y) :
      Gives (Production.look incrementAhead >>= f) ⟨tokens, i⟩ e y := by
    refine .bind (.look fun c hc => ?_) hf
    have ha : c.ahead = tokens := congrArg Point.ahead hc
    rw [Bool.eq_false_iff]
    intro hc
    obtain ⟨first, second, rest, ha', hpair⟩ := incrementAhead_iff.mp hc
    exact hnot first second rest (ha.symm.trans ha') hpair
  cases h with
  | increment _ hpair =>
    refine .bind (b := true) (.look fun c hc => ?_) ?_
    · exact incrementAhead_iff.mpr ⟨_, _, _, congrArg Point.ahead hc, hpair⟩
    · refine .bind .advance (.discard_bind .advance ?_)
      exact .bind .fresh (.bind .fresh .pure)
  | subscript _ hopening hindex hclosing =>
    refine plain (noIncrement_of_is hopening (by decide) (by decide)) (.accept_some_bind hopening ?_)
    refine .bind (gives_expression_before hr hindex hclosing (by decide)) (.expect_bind hclosing ?_)
    exact .bind .fresh .pure
  | name _ hnot => exact plain hnot (.accept_none_bind hend (.bind .fresh .pure))
  | literal hvalue =>
    rw [isIdentifier_iff] at hname
    simp [literal?, hname] at hvalue
  | this hkeyword => exact absurd hkeyword (not_is_of_isIdentifier hname _)
  | emptyArray hbracket _ => exact absurd hbracket (not_is_of_isIdentifier hname _)
  | array hbracket _ _ => exact absurd hbracket (not_is_of_isIdentifier hname _)
  | global hkeyword _ => exact absurd hkeyword (not_is_of_isIdentifier hname _)
  | grouping hopening _ _ => exact absurd hopening (not_is_of_isIdentifier hname _)

/-- A name is read by what follows it. -/
theorem gives_primary_named {name : Token} {tokens : List Token} {y : Point}
    (h : Derives .primary ⟨name :: tokens, i⟩ e y) (hname : name.isIdentifier) (hend : NotAhead .leftBracket y.ahead) :
    Gives (primary rules) ⟨name :: tokens, i⟩ e y := by
  have hnot : ∀ s, NotAhead s (name :: tokens) := by
    rintro s t rest ht
    cases ht
    exact not_is_of_isIdentifier hname s
  refine .accept_none_bind (hnot _) (.bind (b := false) (.look fun c hc => ?_) ?_)
  · rw [Cursor.check_of_ahead (congrArg Point.ahead hc), isLiteral_eq]
    simp [literal?, isIdentifier_iff.mp hname]
  · refine .accept_none_bind (hnot _) (.accept_none_bind (hnot _) ?_)
    exact .bind (.acceptIf_some hname) (gives_named hr h hname hend)

theorem gives_primary {x y : Point} (h : Derives .primary x e y) (hend : NotAhead .leftBracket y.ahead) :
    Gives (primary rules) x e y := by
  -- A symbol that is no constant passes by the constants.
  have noLiteral {f : Bool → Production Expr} {a : Symbol} {t : Token} {rest : List Token} {i : NodeId} (ht : t.is a)
      (ha : a ∉ literalSymbols) (hf : Gives (f false) ⟨t :: rest, i⟩ e y) :
      Gives (Production.look (·.check isLiteral) >>= f) ⟨t :: rest, i⟩ e y := by
    refine .bind (.look fun c hc => ?_) hf
    rw [Cursor.check_of_ahead (congrArg Point.ahead hc)]
    simp only [isLiteral, is_iff.mp ht]
    cases a <;> first | rfl | exact absurd (by decide) ha
  cases h with
  | literal hvalue =>
    refine .accept_none_bind ((beginsWith_of_literal? hvalue).notAhead (by decide)) ?_
    refine .bind (b := true) (.look fun c hc => ?_) (.map (gives_literalValue hvalue))
    rw [Cursor.check_of_ahead (congrArg Point.ahead hc), isLiteral_eq, hvalue]
    rfl
  | this hkeyword =>
    refine .accept_none_bind (notAhead_of_is hkeyword (by decide)) (noLiteral hkeyword (by decide) ?_)
    exact .accept_some_bind hkeyword (.bind .fresh .pure)
  | emptyArray hbracket hclosing =>
    refine .accept_some_bind hbracket (.ahead_yes_bind hclosing ?_)
    exact .expect_bind hclosing .pure
  | array hbracket hitems hclosing =>
    obtain ⟨t, rest, rfl, ht⟩ := hitems.begins
    refine .accept_some_bind hbracket (.ahead_no_bind ?_ ?_)
    · intro t' rest' htokens
      cases htokens
      exact ht
    · refine .bind (hr .items _ _ _ (Or.inl hitems) ⟨by simp, stops_of_is hclosing (by decide)⟩) ?_
      exact .expect_bind hclosing .pure
  | global hkeyword hname =>
    refine .accept_none_bind (notAhead_of_is hkeyword (by decide)) (noLiteral hkeyword (by decide) ?_)
    refine .accept_none_bind (notAhead_of_is hkeyword (by decide)) (.accept_some_bind hkeyword ?_)
    exact .bind (.expectIf hname) .pure
  | increment hname hpair => exact gives_primary_named hr (.increment hname hpair) hname hend
  | subscript hname hopening hindex hclosing =>
    exact gives_primary_named hr (.subscript hname hopening hindex hclosing) hname hend
  | name hname hnot => exact gives_primary_named hr (.name hname hnot) hname hend
  | grouping hopening hinner hclosing =>
    refine .accept_none_bind (notAhead_of_is hopening (by decide)) (noLiteral hopening (by decide) ?_)
    refine .accept_none_bind (notAhead_of_is hopening (by decide)) ?_
    refine .accept_none_bind (notAhead_of_is hopening (by decide)) ?_
    refine .bind (.acceptIf_none fun t rest ht => ?_) (.accept_some_bind hopening ?_)
    · cases ht
      exact fun hident => not_is_of_isIdentifier hident _ hopening
    · refine .bind (gives_expression_before hr hinner hclosing (by decide)) ?_
      exact .expect_bind hclosing .pure

omit hr in
/-- What follows a callee is no subscript: it is a suffix, or what follows the whole call. -/
theorem Derives.notAhead_subscript {x y : Point} {suffixes : List Suffix} (h : Derives .suffixes x suffixes y)
    (hend : Stops callExtensions y.ahead) : NotAhead .leftBracket x.ahead := by
  cases h with
  | noSuffix => exact hend.notAhead (by decide)
  | callNone hopening _ _ => exact notAhead_of_is hopening (by decide)
  | callSome hopening _ _ _ _ => exact notAhead_of_is hopening (by decide)
  | property hdot _ _ => exact notAhead_of_is hdot (by decide)

theorem gives_unary {x y : Point} {e : Expr} (h : Derives (.tier .unary) x e y) (hend : Stops callExtensions y.ahead) :
    Gives (unary rules) x e y := by
  cases h with
  | chain hchain _ _ => cases hchain
  | unary hoperator hright =>
    refine .bind (.acceptIf_some (by simpa using hoperator)) ?_
    exact .bind (hr .unary _ _ _ hright hend) .pure
  | operand h =>
    have hbegin : BeginsWith primarySymbols x.ahead := h.begins
    refine .bind (.acceptIf_none fun t rest ht => ?_) ?_
    · have hbang := hbegin.notAhead (s := .bang) (by decide) t rest ht
      have hminus := hbegin.notAhead (s := .minus) (by decide) t rest ht
      simp [hbang, hminus]
    · cases h with
      | call hcallee hsuffixes =>
        refine .bind (gives_primary hr hcallee (hsuffixes.notAhead_subscript hend)) ?_
        exact hr (.suffixes _) _ _ _ ⟨_, hsuffixes, rfl⟩ hend

theorem gives_arguments {count : Nat} {x y : Point} {values : List Expr} (h : Meaning (.arguments count) x values y)
    (hend : Follow (.arguments count) y.ahead) : Gives (arguments rules count) x values y := by
  obtain ⟨hvalues, hlen⟩ := h
  unfold arguments
  cases hvalues with
  | lastExpression h =>
    rw [if_neg (by simp only [List.length_singleton] at hlen; simp only [arityLimit]; omega)]
    refine .bind (hr .expression _ _ _ h (Stops.mono hend (by simp))) ?_
    exact .accept_none_bind (Stops.notAhead hend (by simp)) .pure
  | moreExpressions h hcomma hrest =>
    simp only [List.length_cons] at hlen
    rw [if_neg (by simp only [arityLimit]; omega)]
    refine .bind (gives_expression_before hr h hcomma (by decide)) (.accept_some_bind hcomma ?_)
    exact .bind (hr (.arguments (count + 1)) _ _ _ ⟨hrest, by omega⟩ hend) .pure

theorem gives_suffixes {inner : Expr} {x y : Point} {e : Expr} (h : Meaning (.suffixes inner) x e y)
    (hend : Stops callExtensions y.ahead) : Gives (Grammar.suffixes rules inner) x e y := by
  obtain ⟨suffixes, h, rfl⟩ := h
  cases h with
  | noSuffix =>
    refine .accept_none_bind (hend.notAhead (by decide)) ?_
    exact .accept_none_bind (hend.notAhead (by decide)) .pure
  | callNone hopening hclosing hrest =>
    refine .accept_some_bind hopening (.ahead_yes_bind hclosing (.bind .pure ?_))
    exact .bind (.expectIf hclosing) (hr (.suffixes _) _ _ _ ⟨_, hrest, rfl⟩ hend)
  | callSome hopening harguments hlen hclosing hrest =>
    refine .accept_some_bind hopening ?_
    refine .ahead_no_bind (BeginsExpression.notAhead harguments.begins (by decide)) ?_
    refine .bind (hr (.arguments 0) _ _ _ ⟨harguments, by simpa using hlen⟩
      (stops_of_is hclosing (by decide))) ?_
    exact .bind (.expectIf hclosing) (hr (.suffixes _) _ _ _ ⟨_, hrest, rfl⟩ hend)
  | property hdot hname hrest =>
    refine .accept_none_bind (notAhead_of_is hdot (by decide)) (.accept_some_bind hdot ?_)
    exact .bind (.expectIf hname) (hr (.suffixes _) _ _ _ ⟨_, hrest, rfl⟩ hend)

theorem gives_rulesOver : ∀ (phrase : Phrase) (x : Point) (v : phrase.Tree) (y : Point), Meaning phrase x v y →
    Follow phrase y.ahead → Gives (rulesOver rules phrase) x v y
  | .program, _, _, _, h, hend => gives_program hr h.1 hend
  | .body, _, _, _, h, hend => gives_body hr h hend
  | .declaration, _, _, _, ⟨_, hv, h⟩, _ => hv ▸ gives_declaration hr h
  | .statement, _, _, _, h, _ => gives_statement hr h
  | .methods, _, _, _, h, hend => gives_methods hr h hend
  | .parameters _, _, _, _, h, hend => gives_parameters hr h hend
  | .expression, _, _, _, h, hend => gives_expression hr h hend
  | .furtherValues, _, _, _, h, hend => gives_furtherValues hr h hend
  | .assignment, _, _, _, h, hend => gives_assignment hr h hend
  | .operand _, _, _, _, h, hend => gives_operand hr h hend
  | .operators _ _, _, _, _, h, hend => gives_operators hr h hend
  | .unary, _, _, _, h, hend => gives_unary hr h hend
  | .suffixes _, _, _, _, h, hend => gives_suffixes hr h hend
  | .arguments _, _, _, _, h, hend => gives_arguments hr h hend
  | .items, _, _, _, h, hend => gives_items hr (h.resolve_right hend.1) hend

end Productions

/-- What the grammar derives is read, provided that what follows cannot extend it. -/
theorem gives_produce : ∀ (n : Nat) (phrase : Phrase) (x : Point) (v : phrase.Tree) (y : Point),
    Meaning phrase x v y → Follow phrase y.ahead → Gives (produce n phrase) x v y
  | 0, _, _, _, _, _, _ => fun _ _ => Or.inl rfl
  | n + 1, phrase, x, v, y, h, hend => gives_rulesOver (gives_produce n) phrase x v y h hend

end Treewalk.Grammar
