import Treewalk.Proofs.Grammar.Nesting

/-!
What is read without an error is derived by the grammar, and is read as the tree of its derivation. A production is
given the relation between points that it establishes; `Reads` says that it does so unless it notes an error. Each
production is then taken apart from its front, and the relation shrinks to what the rest of it has to establish.
-/

namespace Treewalk.Grammar

/-- The point of a program at which a cursor stands. -/
def Cursor.point (c : Cursor) : Point := ⟨c.ahead, c.nextId⟩

@[simp] theorem Cursor.point_ahead (c : Cursor) : c.point.ahead = c.ahead := rfl

@[simp] theorem Cursor.point_nextId (c : Cursor) : c.point.nextId = c.nextId := rfl

theorem Cursor.point_of_ahead {c : Cursor} {t : Token} {rest : List Token} (h : c.ahead = t :: rest) :
    c.point = ⟨t :: rest, c.nextId⟩ := by
  rw [← h]
  rfl

/-- A success of the production takes back no error, and if it adds none, it establishes the relation. -/
def Reads {α : Type} (p : Production α) (M : Point → α → Point → Prop) : Prop :=
  ∀ c a d, p c = .ok a d →
    c.errors.length ≤ d.errors.length ∧ (d.errors.length ≤ c.errors.length → M c.point a d.point)

namespace Reads

variable {α β : Type} {M : Point → α → Point → Prop}

theorem pure {a : α} (h : ∀ x, M x a x) : Reads (Pure.pure a) M := fun c b d hp => by
  obtain ⟨rfl, rfl⟩ := Production.pure_eq_ok.mp hp
  exact ⟨Nat.le_refl _, fun _ => h c.point⟩

variable {p : Production β} {s : Symbol}

theorem bind {P : Point → β → Point → Prop} {f : β → Production α} (hp : Reads p P)
    (hf : ∀ b, Reads (f b) fun y a z => ∀ x, P x b y → M x a z) : Reads (p >>= f) M := fun c a d h => by
  obtain ⟨b, mid, h₁, h₂⟩ := Production.bind_eq_ok.mp h
  obtain ⟨hle₁, hP⟩ := hp c b mid h₁
  obtain ⟨hle₂, hM⟩ := hf b mid a d h₂
  exact ⟨Nat.le_trans hle₁ hle₂, fun hle => hM (Nat.le_trans hle hle₁) c.point (hP (Nat.le_trans hle₂ hle))⟩

theorem map {P : Point → β → Point → Prop} {f : β → α} (hp : Reads p P) (h : ∀ x b y, P x b y → M x (f b) y) :
    Reads (f <$> p) M :=
  hp.bind fun b => pure fun y x hP => h x b y hP

theorem imp {p : Production α} {P : Point → α → Point → Prop} (hp : Reads p P) (h : ∀ x a y, P x a y → M x a y) :
    Reads p M := fun c a d hc => ⟨(hp c a d hc).1, fun hle => h _ _ _ ((hp c a d hc).2 hle)⟩

theorem fail (fault : ParseFault) : Reads (Production.fail fault : Production α) M := fun c a d h => by cases h

theorem look_bind {f : Cursor → β} {g : β → Production α}
    (h : ∀ b, Reads (g b) fun x a y => (∃ c : Cursor, c.point = x ∧ f c = b) → M x a y) :
    Reads (Production.look f >>= g) M := fun c a d hp => by
  obtain ⟨b, mid, h₁, h₂⟩ := Production.bind_eq_ok.mp hp
  obtain ⟨rfl, rfl⟩ := Production.look_eq_ok.mp h₁
  obtain ⟨hle, hM⟩ := h _ c a d h₂
  exact ⟨hle, fun hle => hM hle ⟨c, rfl, rfl⟩⟩

theorem ahead_bind {g : Bool → Production α}
    (hyes : Reads (g true) fun x a y => (∃ t rest, x.ahead = t :: rest ∧ t.is s) → M x a y)
    (hno : Reads (g false) fun x a y => NotAhead s x.ahead → M x a y) : Reads (Production.ahead s >>= g) M := by
  refine look_bind fun b => ?_
  cases b with
  | true =>
    refine hyes.imp fun x a y h => ?_
    rintro ⟨c, rfl, hc⟩
    exact h (Cursor.check_eq_true.mp hc)
  | false =>
    refine hno.imp fun x a y h => ?_
    rintro ⟨c, rfl, hc⟩
    exact h (Cursor.check_eq_false.mp hc)

theorem fresh_bind {f : NodeId → Production α}
    (h : ∀ i, Reads (f i) fun x a y => x.nextId = i + 1 → M ⟨x.ahead, i⟩ a y) :
    Reads (Production.fresh >>= f) M := fun c a d hp => by
  obtain ⟨i, mid, h₁, h₂⟩ := Production.bind_eq_ok.mp hp
  obtain ⟨rfl, rfl⟩ := Production.fresh_eq_ok.mp h₁
  obtain ⟨hle, hM⟩ := h c.nextId _ a d h₂
  exact ⟨hle, fun hle => hM hle rfl⟩

/-- Behind a noted error nothing has to be established. -/
theorem report_bind {t : Token} {fault : ParseFault} {f : Unit → Production α} {N : Point → α → Point → Prop}
    (h : Reads (f ()) N) : Reads (Production.report t fault >>= f) M := fun c a d hp => by
  obtain ⟨hle, -⟩ := h (c.report ⟨t, fault⟩) a d hp
  have : (c.report ⟨t, fault⟩).errors.length = c.errors.length + 1 := by simp [Cursor.report]
  exact ⟨by omega, fun hle => by omega⟩

/-- At the end, advancing stays there. -/
theorem advance : Reads Production.advance fun x t y => (x.ahead = [] ∧ y = x) ∨ x = ⟨t :: y.ahead, y.nextId⟩ :=
  fun c t d h => by
    cases h
    cases hc : c.ahead with
    | nil => rw [Cursor.advance_of_atEnd hc]; exact ⟨Nat.le_refl _, fun _ => Or.inl ⟨hc, rfl⟩⟩
    | cons t rest =>
      rw [Cursor.advance_of_ahead hc, Cursor.point_of_ahead hc]
      exact ⟨Nat.le_refl _, fun _ => Or.inr rfl⟩

theorem discard_bind {P : Point → β → Point → Prop} {f : Unit → Production α} (hp : Reads p P)
    (hf : Reads (f ()) fun y a z => ∀ x b, P x b y → M x a z) : Reads (discard p >>= f) M :=
  bind (P := fun x _ y => ∃ b, P x b y) (hp.map fun _ b _ h => ⟨b, h⟩) fun _ =>
    hf.imp fun _ _ _ h x => fun ⟨b, hb⟩ => h x b hb

theorem acceptIf_bind {p : Token → Bool} {f : Option Token → Production α}
    (hyes : ∀ t, p t → Reads (f (some t)) fun x a y => M ⟨t :: x.ahead, x.nextId⟩ a y)
    (hno : Reads (f none) fun x a y => (∀ t rest, x.ahead = t :: rest → ¬p t) → M x a y) :
    Reads (Production.acceptIf p >>= f) M := fun c a d h => by
  obtain ⟨x, mid, h₁, h₂⟩ := Production.bind_eq_ok.mp h
  rcases Production.acceptIf_eq_ok h₁ with ⟨t, rest, rfl, ha, ht, rfl⟩ | ⟨rfl, rfl, hn⟩
  · rw [Cursor.point_of_ahead ha]
    exact hyes t ht _ a d h₂
  · obtain ⟨hle, hM⟩ := hno mid a d h₂
    exact ⟨hle, fun hle => hM hle hn⟩

theorem accept_bind {f : Option Token → Production α}
    (hyes : ∀ t, t.is s → Reads (f (some t)) fun x a y => M ⟨t :: x.ahead, x.nextId⟩ a y)
    (hno : Reads (f none) fun x a y => NotAhead s x.ahead → M x a y) : Reads (Production.accept s >>= f) M :=
  acceptIf_bind hyes hno

theorem expectIf_bind {p : Token → Bool} {what : Expected} {f : Token → Production α}
    (h : ∀ t, p t → Reads (f t) fun x a y => M ⟨t :: x.ahead, x.nextId⟩ a y) :
    Reads (Production.expectIf p what >>= f) M := fun c a d hp => by
  obtain ⟨t, mid, h₁, h₂⟩ := Production.bind_eq_ok.mp hp
  obtain ⟨rest, ha, ht, rfl⟩ := Production.expectIf_eq_ok h₁
  rw [Cursor.point_of_ahead ha]
  exact h t ht _ a d h₂

theorem expect_bind {what : Expected} {f : Unit → Production α}
    (h : ∀ t, t.is s → Reads (f ()) fun x a y => M ⟨t :: x.ahead, x.nextId⟩ a y) :
    Reads (discard (Production.expect s what) >>= f) M := fun c a d hp => by
  obtain ⟨_, mid, h₁, h₂⟩ := Production.bind_eq_ok.mp hp
  obtain ⟨t, rest, ha, ht, rfl⟩ := Production.discard_expect_eq_ok h₁
  rw [Cursor.point_of_ahead ha]
  exact h t ht _ a d h₂

end Reads

/-! ### Meanings -/

/-- The tier that a level is. -/
def Level.tier : Level → Tier
  | or => .logicOr
  | and => .logicAnd
  | equality => .equality
  | comparison => .comparison
  | sum => .term
  | product => .factor

/-- The tier of the operands of a level. -/
def Level.operandTier : Level → Tier
  | or => .logicAnd
  | and => .equality
  | equality => .comparison
  | comparison => .term
  | sum => .factor
  | product => .unary

theorem Level.chain (level : Level) : Chain level.tier level.operators level.operandTier level.combine := by
  cases level <;> constructor

/-- A left operand with the operations behind it. -/
def Level.chained (level : Level) (left : Expr) (operations : List (Token × Expr)) : Expr :=
  operations.foldl (fun left x => level.combine left x.1 x.2) left

/-- What a phrase is by the grammar. The reading of items at the end of the tokens says nothing: no bracket closes
them. -/
def Meaning : (phrase : Phrase) → Point → phrase.Tree → Point → Prop
  | .program, x, v, y => Derives .declarations x v y ∧ y.ahead = []
  | .body, x, v, y => Derives .declarations x v y
  | .declaration, x, v, y => ∃ s, v = some s ∧ Derives .declaration x s y
  | .statement, x, v, y => Derives .statement x v y
  | .methods, x, v, y => Derives .methods x v y
  | .parameters count, x, v, y => Derives .names x v y ∧ count + List.length v ≤ 255
  | .expression, x, v, y => Derives .expression x v y
  | .furtherValues, x, v, y => (v = [] ∧ x = y) ∨
      ∃ comma tokens i, x = ⟨comma :: tokens, i⟩ ∧ comma.is .comma ∧ Derives .expressions ⟨tokens, i⟩ v y
  | .assignment, x, v, y => Derives .assignment x v y
  | .operand level, x, v, y => Derives (.tier level.tier) x v y
  | .operators level left, x, v, y => ∃ operations, Derives (.operations level.tier) x operations y ∧
      v = level.chained left operations
  | .unary, x, v, y => Derives (.tier .unary) x v y
  | .suffixes inner, x, v, y => ∃ suffixes, Derives .suffixes x suffixes y ∧ v = suffixes.foldl Suffix.apply inner
  | .arguments count, x, v, y => Derives .expressions x v y ∧ count + List.length v ≤ 255
  | .items, x, v, y => Derives .items x v y ∨ y.ahead = []

/-! ### Targets of assignments -/

/-- The expression is none that an operator makes. -/
def Unoperated : Expr → Prop
  | .binary .. => False
  | .logical .. => False
  | .unary .. => False
  | _ => True

theorem Chain.not_unoperated {t : Tier} {symbols : List Symbol} {o : Tier} {combine : Expr → Token → Expr → Expr}
    (h : Chain t symbols o combine) (left right : Expr) (operator : Token) :
    ¬Unoperated (combine left operator right) := by
  cases h <;> exact id

theorem foldl_not_unoperated {combine : Expr → Token → Expr → Expr}
    (h : ∀ left operator right, ¬Unoperated (combine left operator right)) :
    ∀ (operations : List (Token × Expr)) (first : Expr), operations ≠ [] →
      ¬Unoperated (operations.foldl (fun left x => combine left x.1 x.2) first)
  | [x], first, _ => h first x.1 x.2
  | x :: y :: rest, first, _ => foldl_not_unoperated h (y :: rest) (combine first x.1 x.2) (by simp)

variable {p q : Point} {name : Token}

/-- An expression that no operator makes is an operand of each tier it is derived from. -/
theorem Derives.operand_of_unoperated (level : Level) {e : Expr} (h : Derives (.tier level.tier) p e q)
    (he : Unoperated e) : Derives (.tier level.operandTier) p e q := by
  generalize ht : level.tier = t at h
  cases h with
  | unary _ _ => exact he.elim
  | operand _ => cases level <;> cases ht
  | chain hchain hfirst hoperations =>
    cases hoperations with
    | noOperation =>
      cases hchain <;> cases level <;> first | exact hfirst | cases ht
    | moreOperations _ _ _ _ =>
      exact (foldl_not_unoperated (fun l o r => hchain.not_unoperated l r o) _ _ (by simp) he).elim

theorem Derives.call_of_unoperated {e : Expr} (h : Derives (.tier .logicOr) p e q) (he : Unoperated e) :
    Derives .call p e q := by
  have h : Derives (.tier .logicAnd) p e q := operand_of_unoperated .or h he
  have h : Derives (.tier .equality) p e q := operand_of_unoperated .and h he
  have h : Derives (.tier .comparison) p e q := operand_of_unoperated .equality h he
  have h : Derives (.tier .term) p e q := operand_of_unoperated .comparison h he
  have h : Derives (.tier .factor) p e q := operand_of_unoperated .sum h he
  have h : Derives (.tier .unary) p e q := operand_of_unoperated .product h he
  cases h with
  | chain hchain _ _ => cases hchain
  | unary _ _ => exact he.elim
  | operand h => exact h

/-- Behind a property the last of the suffixes is the property. -/
theorem Derives.suffixes_concat {suffixes : List Suffix} : Derives .suffixes p (suffixes ++ [.property name]) q ↔
      name.isIdentifier ∧ ∃ dot : Token, dot.is .dot ∧ Derives .suffixes p suffixes ⟨dot :: name :: q.ahead, q.nextId⟩ := by
  induction suffixes generalizing p with
  | nil =>
    constructor
    · intro h
      cases h with
      | property hdot hname hrest =>
        cases hrest
        exact ⟨hname, _, hdot, .noSuffix⟩
    · rintro ⟨hname, dot, hdot, h⟩
      cases h
      exact .property hdot hname .noSuffix
  | cons s suffixes ih =>
    constructor
    · intro h
      cases h with
      | callNone ho hc hrest =>
        obtain ⟨hname, dot, hdot, h⟩ := ih.mp hrest
        exact ⟨hname, dot, hdot, .callNone ho hc h⟩
      | callSome ho hargs hlen hc hrest =>
        obtain ⟨hname, dot, hdot, h⟩ := ih.mp hrest
        exact ⟨hname, dot, hdot, .callSome ho hargs hlen hc h⟩
      | property hd hn hrest =>
        obtain ⟨hname, dot, hdot, h⟩ := ih.mp hrest
        exact ⟨hname, dot, hdot, .property hd hn h⟩
    · rintro ⟨hname, dot, hdot, h⟩
      cases h with
      | callNone ho hc hrest => exact .callNone ho hc (ih.mpr ⟨hname, dot, hdot, hrest⟩)
      | callSome ho hargs hlen hc hrest => exact .callSome ho hargs hlen hc (ih.mpr ⟨hname, dot, hdot, hrest⟩)
      | property hd hn hrest => exact .property hd hn (ih.mpr ⟨hname, dot, hdot, hrest⟩)

/-- A variable is derived from its name alone. -/
theorem Derives.of_var {i : NodeId} (h : Derives (.tier .logicOr) p (.var i name) q) :
    name.isIdentifier ∧ p = ⟨name :: q.ahead, i⟩ ∧ q.nextId = i + 1 := by
  have h := h.call_of_unoperated trivial
  generalize he : Expr.var i name = e at h
  cases h with
  | call hprimary hsuffixes =>
    rename_i callee suffixes
    rcases List.eq_nil_or_concat suffixes with rfl | ⟨init, last, rfl⟩
    · cases hsuffixes
      obtain rfl : Expr.var i name = callee := he
      cases hprimary with
      | name hname _ => exact ⟨hname, rfl, rfl⟩
    · simp only [List.concat_eq_append, List.foldl_append, List.foldl_cons, List.foldl_nil] at he
      cases last <;> cases he

/-- A property is derived from its object, a dot and its name. -/
theorem Derives.of_get {object : Expr} (h : Derives (.tier .logicOr) p (.get object name) q) :
    name.isIdentifier ∧ ∃ dot : Token, dot.is .dot ∧ Derives .call p object ⟨dot :: name :: q.ahead, q.nextId⟩ := by
  have h := h.call_of_unoperated trivial
  generalize he : Expr.get object name = e at h
  cases h with
  | call hprimary hsuffixes =>
    rename_i callee suffixes
    rcases List.eq_nil_or_concat suffixes with rfl | ⟨init, last, rfl⟩
    · obtain rfl : Expr.get object name = callee := he
      cases hprimary
    · simp only [List.concat_eq_append, List.foldl_append, List.foldl_cons, List.foldl_nil] at he hsuffixes
      cases last with
      | call _ _ => cases he
      | property name' =>
        cases he
        obtain ⟨hname, dot, hdot, h⟩ := Derives.suffixes_concat.mp hsuffixes
        exact ⟨hname, dot, hdot, .call hprimary h⟩

/-- An expression with those that follow it. -/
theorem Derives.expressions {x y z : Point} {first : Expr} {rest : List Expr} (hfirst : Derives .expression x first y)
    (hrest : Meaning .furtherValues y rest z) : Derives .expressions x (first :: rest) z := by
  rcases hrest with ⟨rfl, rfl⟩ | ⟨comma, tokens, i, rfl, hcomma, hrest⟩
  · exact .lastExpression hfirst
  · exact .moreExpressions hfirst hcomma hrest

section Productions
variable {rules : Rules} (hr : ∀ phrase, Reads (rules phrase) (Meaning phrase))
include hr

/-! ### Routines -/

theorem reads_block : Reads (block rules) fun x body y =>
    ∀ opening : Token, opening.is .leftBrace → Derives .block ⟨opening :: x.ahead, x.nextId⟩ body y := by
  refine .bind (hr .body) fun body => .expect_bind fun closing hclosing => .pure ?_
  intro y x hbody opening hopening
  exact .block hopening hbody hclosing

theorem reads_parameterList : Reads (parameterList rules) fun x params y =>
    ∀ opening : Token, opening.is .leftParen → Derives .parameterList ⟨opening :: x.ahead, x.nextId⟩ params y := by
  refine .ahead_bind ?_ ?_
  · refine .expect_bind fun closing hclosing => .pure ?_
    intro x _ opening hopening
    exact .noParameters hopening hclosing
  · refine .bind (hr (.parameters 0)) fun params => .expect_bind fun closing hclosing => .pure ?_
    intro y x hparams _ opening hopening
    exact .parameters hopening hparams.1 (by simpa using hparams.2) hclosing

theorem reads_parameters (count : Nat) : Reads (parameters rules count) (Meaning (.parameters count)) := by
  unfold parameters
  split
  · exact .fail _
  · next hcount =>
    have hcount : count < 255 := by simpa [arityLimit] using hcount
    refine .expectIf_bind fun name hname => .accept_bind (fun comma hcomma => ?_) (.pure ?_)
    · refine .bind (hr (.parameters (count + 1))) fun rest => .pure ?_
      intro y x hrest
      exact ⟨.moreNames hname hcomma hrest.1, by have := hrest.2; simp only [List.length_cons]; omega⟩
    · intro x _
      exact ⟨.lastName hname, by simp only [List.length_singleton]; omega⟩

/-- A function has its parameters in parentheses. -/
theorem reads_function : Reads (routine rules .function) fun x f y =>
    ∀ keyword : Token, keyword.is .kwFun → Derives .declaration ⟨keyword :: x.ahead, x.nextId⟩ (.function f) y := by
  refine .expectIf_bind fun name hname => .look_bind fun bare => ?_
  dsimp only
  rw [if_neg (by simp)]
  refine .expect_bind fun opening hopening => .bind (reads_parameterList hr) fun params => ?_
  refine .expect_bind fun brace hbrace => .bind (reads_block hr) fun body => .pure ?_
  intro z y hbody x hparams _ keyword hkeyword
  exact .function hkeyword hname (hparams opening hopening) (hbody brace hbrace)

/-- A method may do without parameters in parentheses. -/
theorem reads_method : Reads (routine rules .method) fun x f y => Derives .method x f y := by
  refine .expectIf_bind fun name hname => .ahead_bind ?_ ?_
  · refine .expect_bind fun brace hbrace => .bind (reads_block hr) fun body => .pure ?_
    intro y x hbody _
    exact .bareMethod hname (hbody brace hbrace)
  · refine .expect_bind fun opening hopening => .bind (reads_parameterList hr) fun params => ?_
    refine .expect_bind fun brace hbrace => .bind (reads_block hr) fun body => .pure ?_
    intro z y hbody x hparams _
    exact .method hname (hparams opening hopening) (hbody brace hbrace)

/-! ### Statements -/

theorem reads_varDeclaration : Reads (varDeclaration rules) fun x s y =>
    ∀ keyword : Token, keyword.is .kwVar → Derives .varDecl ⟨keyword :: x.ahead, x.nextId⟩ s y := by
  refine .expectIf_bind fun name hname => .accept_bind (fun equals hequals => ?_) ?_
  · refine .bind (hr .expression) fun value => .expect_bind fun semicolon hsemicolon => .pure ?_
    intro y x hvalue keyword hkeyword
    exact .initializedVariable hkeyword hname hequals hvalue hsemicolon
  · refine .expect_bind fun semicolon hsemicolon => .pure ?_
    intro x _ keyword hkeyword
    exact .bareVariable hkeyword hname hsemicolon

theorem reads_expressionStatement : Reads (expressionStatement rules) fun x s y => Derives .exprStmt x s y := by
  refine .bind (hr .expression) fun value => .expect_bind fun semicolon hsemicolon => .pure ?_
  intro y x hvalue
  exact .exprStmt hvalue hsemicolon

theorem reads_loopInitializer : Reads (loopInitializer rules) fun x s y => Derives .loopStart x s y := by
  refine .accept_bind (fun semicolon hsemicolon => .pure fun x => .noLoopStart hsemicolon) ?_
  refine .accept_bind (fun keyword hkeyword => ?_) ?_
  · exact (reads_varDeclaration hr).map fun x s y hs _ => .loopVariable (hs keyword hkeyword)
  · exact (reads_expressionStatement hr).map fun x s y hs _ _ => .loopExpression hs

theorem reads_expressionUnless (s : Symbol) : Reads (expressionUnless rules s) fun x e y =>
    Derives .optionalExpression x e y := by
  refine .ahead_bind (.pure fun x _ => .noExpression) ?_
  refine .bind (hr .expression) fun value => .pure ?_
  intro y x hvalue _
  exact .someExpression hvalue

theorem reads_forStatement : Reads (forStatement rules) fun x s y =>
    ∀ keyword : Token, keyword.is .kwFor → Derives .statement ⟨keyword :: x.ahead, x.nextId⟩ s y := by
  refine .expect_bind fun opening hopening => ?_
  refine .bind (reads_loopInitializer hr) fun initializer => ?_
  refine .bind (reads_expressionUnless hr .semicolon) fun condition => ?_
  refine .expect_bind fun semicolon hsemicolon => ?_
  refine .bind (reads_expressionUnless hr .rightParen) fun increment => ?_
  refine .expect_bind fun closing hclosing => ?_
  refine .bind (hr .statement) fun body => .pure ?_
  intro end_ y₃ hbody y₂ hincrement y₁ hcondition x hinitializer keyword hkeyword
  rw [loopTree_eq_elim]
  exact .loop hkeyword hopening hinitializer hcondition hsemicolon hincrement hclosing hbody

theorem reads_ifStatement : Reads (ifStatement rules) fun x s y =>
    ∀ keyword : Token, keyword.is .kwIf → Derives .statement ⟨keyword :: x.ahead, x.nextId⟩ s y := by
  refine .expect_bind fun opening hopening => ?_
  refine .bind (hr .expression) fun condition => ?_
  refine .expect_bind fun closing hclosing => ?_
  refine .bind (hr .statement) fun yes => .accept_bind (fun otherwise hotherwise => ?_) (.pure ?_)
  · refine .bind (hr .statement) fun no => .pure ?_
    intro y₃ y₂ hno y₁ hyes x hcondition keyword hkeyword
    exact .ifElse hkeyword hopening hcondition hclosing hyes hotherwise hno
  · intro y₂ hnot y₁ hyes x hcondition keyword hkeyword
    exact .ifOnly hkeyword hopening hcondition hclosing hyes hnot

theorem reads_whileStatement : Reads (whileStatement rules) fun x s y =>
    ∀ keyword : Token, keyword.is .kwWhile → Derives .statement ⟨keyword :: x.ahead, x.nextId⟩ s y := by
  refine .expect_bind fun opening hopening => ?_
  refine .bind (hr .expression) fun condition => ?_
  refine .expect_bind fun closing hclosing => ?_
  refine .bind (hr .statement) fun body => .pure ?_
  intro y₂ y₁ hbody x hcondition keyword hkeyword
  exact .whileLoop hkeyword hopening hcondition hclosing hbody

theorem reads_returnStatement (keyword : Token) (hkeyword : keyword.is .kwReturn) :
    Reads (returnStatement rules keyword) fun x s y => Derives .statement ⟨keyword :: x.ahead, x.nextId⟩ s y := by
  refine .bind (reads_expressionUnless hr .semicolon) fun value => ?_
  refine .expect_bind fun semicolon hsemicolon => .pure ?_
  intro y x hvalue
  exact .returnValue hkeyword hvalue hsemicolon

theorem reads_printStatement (keyword : Token) (hkeyword : keyword.is .kwPrint) :
    Reads (printStatement rules keyword) fun x s y => Derives .statement ⟨keyword :: x.ahead, x.nextId⟩ s y := by
  refine .bind (hr .expression) fun first => .bind (hr .furtherValues) fun rest => ?_
  refine .expect_bind fun semicolon hsemicolon => .pure ?_
  intro z y hrest x hfirst
  exact .print hkeyword (hfirst.expressions hrest) hsemicolon

theorem reads_statement : Reads (statement rules) (Meaning .statement) := by
  refine .accept_bind (fun keyword hkeyword => ?_) ?_
  · exact (reads_forStatement hr).imp fun x s y hs => hs keyword hkeyword
  refine .accept_bind (fun keyword hkeyword => ?_) ?_
  · exact (reads_ifStatement hr).imp fun x s y hs _ => hs keyword hkeyword
  refine .accept_bind (fun keyword hkeyword => ?_) ?_
  · exact (reads_whileStatement hr).imp fun x s y hs _ _ => hs keyword hkeyword
  refine .accept_bind (fun keyword hkeyword => ?_) ?_
  · refine .expect_bind fun semicolon hsemicolon => .pure ?_
    intro x _ _ _
    exact .breakLoop hkeyword hsemicolon
  refine .accept_bind (fun keyword hkeyword => ?_) ?_
  · exact (reads_returnStatement hr keyword hkeyword).imp fun x s y hs _ _ _ _ => hs
  refine .accept_bind (fun opening hopening => ?_) ?_
  · exact (reads_block hr).map fun x s y hs _ _ _ _ _ => .inner (hs opening hopening)
  refine .accept_bind (fun keyword hkeyword => ?_) ?_
  · exact (reads_printStatement hr keyword hkeyword).imp fun x s y hs _ _ _ _ _ _ => hs
  · exact (reads_expressionStatement hr).imp fun x s y hs _ _ _ _ _ _ _ => .expressionStatement hs

/-! ### Declarations -/

theorem reads_methods : Reads (methods rules) (Meaning .methods) := by
  refine .look_bind fun x => ?_
  split
  · exact .pure fun x _ => .noMethod
  · refine .bind (reads_method hr) fun first => .bind (hr .methods) fun rest => .pure ?_
    intro z y hrest x hfirst _
    exact .moreMethods hfirst hrest

theorem reads_classDeclaration : Reads (classDeclaration rules) fun x s y =>
    ∀ keyword : Token, keyword.is .kwClass → Derives .declaration ⟨keyword :: x.ahead, x.nextId⟩ s y := by
  refine .expectIf_bind fun name hname => .accept_bind (fun less hless => ?_) ?_
  · refine .expectIf_bind fun parent hparent => .fresh_bind fun i => ?_
    refine .expect_bind fun opening hopening => .bind (hr .methods) fun methods => ?_
    refine .expect_bind fun closing hclosing => .pure ?_
    intro y x hmethods hi keyword hkeyword
    obtain ⟨tokens, j⟩ := x
    obtain rfl : j = i + 1 := hi
    exact .subclass hkeyword hname hless hparent hopening hmethods hclosing
  · refine .expect_bind fun opening hopening => .bind (hr .methods) fun methods => ?_
    refine .expect_bind fun closing hclosing => .pure ?_
    intro y x hmethods _ keyword hkeyword
    exact .baseClass hkeyword hname hopening hmethods hclosing

omit hr in
theorem isPath_iff {t : Token} : isPath t = true ↔ ∃ text, t.kind = .path text := by
  unfold isPath
  split <;> simp_all

theorem reads_declared : Reads (declared rules) fun x s y => Derives .declaration x s y := by
  refine Reads.accept_bind (fun keyword hkeyword => ?_) ?_
  · exact (reads_classDeclaration hr).imp fun x s y hs => hs keyword hkeyword
  refine Reads.look_bind fun starts => ?_
  split
  · next hstarts =>
    refine Reads.advance.discard_bind (Reads.bind (reads_function hr) fun f => Reads.pure ?_)
    rintro z y hf x keyword hx ⟨c, rfl, hc⟩ -
    obtain ⟨hfun, -⟩ := Bool.and_eq_true_iff.mp (hc.trans hstarts)
    obtain ⟨t, rest, ha, ht⟩ := Cursor.check_eq_true.mp hfun
    rcases hx with ⟨hnil, -⟩ | hx
    · simp [ha] at hnil
    · rw [hx]
      rw [Cursor.point_of_ahead ha] at hx
      exact hf keyword (by simp_all)
  refine Reads.accept_bind (fun keyword hkeyword => ?_) ?_
  · exact (reads_varDeclaration hr).imp fun x s y hs _ _ => .variable (hs keyword hkeyword)
  refine Reads.accept_bind (fun keyword hkeyword => ?_) ?_
  · refine Reads.expectIf_bind fun path hpath => Reads.expect_bind fun semicolon hsemicolon => Reads.pure ?_
    intro x _ _ _
    exact .library hkeyword (isPath_iff.mp hpath) hsemicolon
  · exact (hr .statement).imp fun x s y hs _ _ _ _ => .plain hs

/-- A declaration that is given up leaves an error behind. -/
theorem reads_declaration (hk : ∀ phrase, Keeps Cursor.Onward (rules phrase)) :
    Reads (declaration rules) (Meaning .declaration) := fun c v d h => by
  unfold declaration at h
  split at h
  · next s next hs =>
    cases h
    obtain ⟨hle, hM⟩ := reads_declared hr c s d hs
    exact ⟨hle, fun hle => ⟨s, rfl, hM hle⟩⟩
  · next e next he =>
    cases h
    have h₁ := ((keeps_declared hk c next).2 e he).errors
    have h₂ := (Respected.resume (Q := Cursor.Onward) (next.report e)).errors
    have : (next.report e).errors.length = next.errors.length + 1 := by simp [Cursor.report]
    exact ⟨by omega, fun hle => by omega⟩
  · cases h

theorem reads_body : Reads (body rules) (Meaning .body) := by
  refine .look_bind fun x => ?_
  split
  · exact .pure fun x _ => .noDeclaration
  · refine .bind (hr .declaration) fun first => .bind (hr .body) fun rest => .pure ?_
    rintro z y hrest x ⟨s, rfl, hs⟩ -
    exact .moreDeclarations hs hrest

theorem reads_program : Reads (program rules) (Meaning .program) := by
  refine .look_bind fun x => ?_
  split
  · next hend =>
    refine .pure ?_
    rintro x ⟨c, rfl, hc⟩
    exact ⟨.noDeclaration, List.isEmpty_iff.mp (hc.trans hend)⟩
  · refine .bind (hr .declaration) fun first => .bind (hr .program) fun rest => .pure ?_
    rintro z y ⟨hrest, hend⟩ x ⟨s, rfl, hs⟩ -
    exact ⟨.moreDeclarations hs hrest, hend⟩

/-! ### Expressions -/

theorem reads_furtherValues : Reads (furtherValues rules) (Meaning .furtherValues) := by
  refine .accept_bind (fun comma hcomma => ?_) (.pure fun x _ => Or.inl ⟨rfl, rfl⟩)
  refine .bind (hr .expression) fun second => .bind (hr .furtherValues) fun rest => .pure ?_
  intro z y hrest x hsecond
  exact Or.inr ⟨comma, x.ahead, x.nextId, rfl, hcomma, hsecond.expressions hrest⟩

theorem reads_expression : Reads (expression rules) (Meaning .expression) := by
  refine .accept_bind (fun keyword hkeyword => ?_) ?_
  · refine .expect_bind fun opening hopening => .bind (reads_parameterList hr) fun params => ?_
    refine .expect_bind fun brace hbrace => .bind (reads_block hr) fun body => .pure ?_
    intro z y hbody x hparams
    exact .lambda hkeyword (hparams opening hopening) (hbody brace hbrace)
  refine .bind (hr .assignment) fun condition => .accept_bind (fun question hquestion => ?_) (.pure ?_)
  · refine .bind (hr (.operand .equality)) fun yes => .expect_bind fun colon hcolon => ?_
    refine .bind (hr (.operand .equality)) fun no => .pure ?_
    intro y₃ y₂ hno y₁ hyes x hcondition _
    exact .ternary (.conditional hcondition hquestion hyes hcolon hno)
  · intro y _ x hcondition _
    exact .ternary (.unconditional hcondition)

/-- What stands on the left of an assignment has been read as an expression: only a variable and a property can be
assigned to, and then the assignment is derived from what they were derived from. -/
theorem reads_assignment : Reads (assignment rules) (Meaning .assignment) := by
  refine .bind (hr (.operand .or)) fun target => ?_
  refine .accept_bind (fun equals hequals => ?_) (.pure fun y _ x htarget => .unassigned htarget)
  refine .bind (hr .assignment) fun value => ?_
  cases target with
  | var i name =>
    refine .fresh_bind fun j => .pure ?_
    intro z hz y hvalue x htarget
    obtain ⟨hname, rfl, hi⟩ := Derives.of_var htarget
    obtain ⟨after, k⟩ := z
    obtain rfl : k = j + 1 := hz
    obtain ⟨tokens, l⟩ := y
    obtain rfl : l = i + 1 := hi
    exact .assignName hname hequals hvalue
  | get object name =>
    refine .pure ?_
    intro z y hvalue x htarget
    obtain ⟨hname, dot, hdot, hobject⟩ := Derives.of_get htarget
    exact .assignProperty hobject hdot hname hequals hvalue
  | _ => exact .report_bind (N := fun _ _ _ => True) (.pure fun _ => trivial)

theorem reads_tighter (level : Level) : Reads (tighter rules level) fun x e y =>
    Derives (.tier level.operandTier) x e y := by
  cases level with
  | or => exact hr (.operand .and)
  | and => exact hr (.operand .equality)
  | equality => exact hr (.operand .comparison)
  | comparison => exact hr (.operand .sum)
  | sum => exact hr (.operand .product)
  | product => exact hr .unary

theorem reads_operand (level : Level) : Reads (operand rules level) (Meaning (.operand level)) := by
  refine .bind (reads_tighter hr level) fun left => (hr (.operators level left)).imp ?_
  rintro y e z ⟨operations, hoperations, rfl⟩ x hleft
  exact .chain level.chain hleft hoperations

theorem reads_operators (level : Level) (left : Expr) :
    Reads (operators rules level left) (Meaning (.operators level left)) := by
  refine .acceptIf_bind (fun operator hoperator => ?_) (.pure fun x _ => ⟨[], .noOperation, rfl⟩)
  refine .bind (reads_tighter hr level) fun right => ?_
  refine (hr (.operators level (level.combine left operator right))).imp ?_
  rintro y e z ⟨operations, hoperations, rfl⟩ x hright
  exact ⟨(operator, right) :: operations,
    .moreOperations level.chain (by simpa using hoperator) hright hoperations, rfl⟩

omit hr in
/-- At the end a constant may be read that stands before it; nothing is taken then. -/
theorem reads_literalValue : Reads literalValue fun x v y =>
    (x.ahead = [] ∧ y = x) ∨ ∃ t, literal? t = some v ∧ x = ⟨t :: y.ahead, y.nextId⟩ := fun c v d h => by
  obtain ⟨hv, rfl⟩ := literalValue_eq_ok h
  cases hc : c.ahead with
  | nil =>
    rw [Cursor.advance_of_atEnd hc]
    exact ⟨Nat.le_refl _, fun _ => Or.inl ⟨hc, rfl⟩⟩
  | cons t rest =>
    rw [Cursor.advance_of_ahead hc] at hv ⊢
    exact ⟨Nat.le_refl _, fun _ => Or.inr ⟨t, hv, Cursor.point_of_ahead hc⟩⟩

omit hr in
theorem literal?_eq_number {t : Token} (h : isNumber t = true) :
    ∃ value, t.kind = .number value ∧ literal? t = some (.number value) := by
  unfold isNumber at h
  split at h
  · next value hkind => exact ⟨value, hkind, by simp only [literal?, hkind]⟩
  · cases h

omit hr in
theorem reads_item : Reads item fun x v y => y.ahead = [] ∨
    (∃ t, literal? t = some v ∧ x = ⟨t :: y.ahead, y.nextId⟩) ∨
    ∃ minus t value, minus.is .minus ∧ t.kind = .number value ∧ v = .number (-value) ∧
      x = ⟨minus :: t :: y.ahead, y.nextId⟩ := by
  refine Reads.look_bind fun negative => ?_
  split
  · next hnegative =>
    refine Reads.advance.discard_bind (reads_literalValue.map ?_)
    rintro y v z (⟨hend, rfl⟩ | ⟨t, ht, rfl⟩) x minus hx ⟨c, rfl, hc⟩
    · exact Or.inl hend
    · obtain ⟨hminus, hnumber⟩ := Bool.and_eq_true_iff.mp (hc.trans hnegative)
      obtain ⟨first, rest, ha, hfirst⟩ := Cursor.check_eq_true.mp hminus
      rw [Cursor.point_of_ahead ha] at hx ⊢
      obtain ⟨rfl, rfl, hi⟩ : first = minus ∧ rest = t :: z.ahead ∧ c.nextId = z.nextId := by
        simpa [and_assoc] using hx
      obtain ⟨value, hkind, hvalue⟩ := literal?_eq_number (t := t) (by simpa [Cursor.checkSecond, ha] using hnumber)
      rw [ht] at hvalue
      cases hvalue
      exact Or.inr (Or.inr ⟨first, t, value, hfirst, hkind, rfl, by rw [hi]⟩)
  · refine reads_literalValue.imp ?_
    rintro x v y (⟨hend, rfl⟩ | h) -
    · exact Or.inl hend
    · exact Or.inr (Or.inl h)

theorem reads_items : Reads (items rules) (Meaning .items) := by
  refine .bind reads_item fun first => .accept_bind (fun comma hcomma => ?_) (.pure ?_)
  · refine .bind (hr .items) fun rest => .pure ?_
    rintro z y (hrest | hend) x (hnil | ⟨t, ht, rfl⟩ | ⟨minus, t, value, hminus, hkind, rfl, rfl⟩)
    · cases hnil
    · exact Or.inl (.moreItems ht hcomma hrest)
    · exact Or.inl (.moreNegatives hminus hkind hcomma hrest)
    all_goals exact Or.inr hend
  · rintro y - x (hnil | ⟨t, ht, rfl⟩ | ⟨minus, t, value, hminus, hkind, rfl, rfl⟩)
    · exact Or.inr hnil
    · exact Or.inl (.lastItem ht)
    · exact Or.inl (.lastNegative hminus hkind)

theorem reads_arrayLiteral (bracket : Token) (hbracket : bracket.is .leftBracket) :
    Reads (arrayLiteral rules bracket) fun x e y => Derives .primary ⟨bracket :: x.ahead, x.nextId⟩ e y := by
  refine .ahead_bind ?_ ?_
  · refine .expect_bind fun closing hclosing => .pure ?_
    intro x _
    exact .emptyArray hbracket hclosing
  · refine .bind (hr .items) fun values => .expect_bind fun closing hclosing => .pure ?_
    rintro y x (hvalues | hend) -
    · exact .array hbracket hvalues hclosing
    · cases hend

omit hr in
theorem incrementAhead_iff {c : Cursor} : incrementAhead c = true ↔
    ∃ first second rest, c.ahead = first :: second :: rest ∧ IncrementPair first second := by
  unfold incrementAhead
  split
  · next first second rest h => simp [h, IncrementPair, and_assoc]
  · next h => simpa using fun first second rest ha => (h first second rest ha).elim

omit hr in
theorem noIncrement_of_incrementAhead {c : Cursor} (h : incrementAhead c = false) : NoIncrement c.ahead :=
  fun first second rest ha hpair => by
    rw [incrementAhead_iff.mpr ⟨first, second, rest, ha, hpair⟩] at h
    cases h

omit hr in
theorem reads_increment (name : Token) : Reads (increment name) fun x e y =>
    ∀ first second rest, x.ahead = first :: second :: rest → y = ⟨rest, x.nextId + 2⟩ ∧
      e = .assign (x.nextId + 1) name (.binary (.var x.nextId name) first (.literal (.number 1))) := by
  refine Reads.bind Reads.advance fun operator => Reads.advance.discard_bind ?_
  refine Reads.fresh_bind fun i => Reads.fresh_bind fun j => Reads.pure ?_
  rintro ⟨tokens, k⟩ hk hj y second hy x hx a b rest ha
  rcases hx with ⟨hnil, rfl⟩ | rfl
  · simp [ha] at hnil
  rcases hy with ⟨hnil, rfl⟩ | rfl
  · simp_all
  · simp_all

theorem reads_named (name : Token) (hname : name.isIdentifier) :
    Reads (named rules name) fun x e y => Derives .primary ⟨name :: x.ahead, x.nextId⟩ e y := by
  refine .look_bind fun x => ?_
  split
  · next hx =>
    refine (reads_increment name).imp ?_
    rintro x e y he ⟨c, rfl, hc⟩
    obtain ⟨first, second, rest, ha, hpair⟩ := incrementAhead_iff.mp (hc.trans hx)
    obtain ⟨rfl, rfl⟩ := he first second rest ha
    rw [Cursor.point_ahead, ha]
    exact .increment hname hpair
  · next hx =>
    refine .accept_bind (fun opening hopening => ?_) ?_
    · refine .bind (hr .expression) fun index => .expect_bind fun closing hclosing => ?_
      refine .fresh_bind fun i => .pure ?_
      rintro ⟨after, j⟩ hj x hindex -
      obtain rfl : j = i + 1 := hj
      exact .subscript hname hopening hindex hclosing
    · refine .fresh_bind fun i => .pure ?_
      rintro ⟨after, j⟩ hj _ ⟨c, hc, hfalse⟩
      obtain rfl : j = i + 1 := hj
      obtain rfl : c.ahead = after := congrArg Point.ahead hc
      exact .name hname (noIncrement_of_incrementAhead (by simpa [hfalse] using hx))

theorem reads_primary : Reads (primary rules) fun x e y => Derives .primary x e y := by
  refine .accept_bind (fun bracket hbracket => reads_arrayLiteral hr bracket hbracket) ?_
  refine .look_bind fun x => ?_
  split
  · next hx =>
    refine reads_literalValue.map ?_
    rintro x v y (⟨hnil, -⟩ | ⟨t, ht, rfl⟩) ⟨c, hc, hcheck⟩ -
    · obtain ⟨t, rest, ha, -⟩ := Cursor.check_eq_true.mp (hcheck.trans hx)
      simp [← hc, ha] at hnil
    · exact .literal ht
  refine .accept_bind (fun keyword hkeyword => ?_) ?_
  · refine .fresh_bind fun i => .pure ?_
    rintro ⟨after, j⟩ hj - -
    obtain rfl : j = i + 1 := hj
    exact .this hkeyword
  refine .accept_bind (fun keyword hkeyword => ?_) ?_
  · refine .expectIf_bind fun name hname => .pure ?_
    intro x _ _ _
    exact .global hkeyword hname
  refine .acceptIf_bind (fun name hname => ?_) ?_
  · exact (reads_named hr name hname).imp fun x e y h _ _ _ _ => h
  refine .accept_bind (fun opening hopening => ?_) (.fail _)
  refine .bind (hr .expression) fun inner => .expect_bind fun closing hclosing => .pure ?_
  intro y x hinner _ _ _ _ _
  exact .grouping hopening hinner hclosing

theorem reads_unary : Reads (unary rules) (Meaning .unary) := by
  refine .acceptIf_bind (fun operator hoperator => ?_) ?_
  · refine .bind (hr .unary) fun right => .pure ?_
    intro y x hright
    exact .unary (by simpa using hoperator) hright
  · refine .bind (reads_primary hr) fun inner => (hr (.suffixes inner)).imp ?_
    rintro y e z ⟨suffixes, hsuffixes, rfl⟩ x hinner -
    exact .operand (.call hinner hsuffixes)

theorem reads_arguments (count : Nat) : Reads (arguments rules count) (Meaning (.arguments count)) := by
  unfold arguments
  split
  · exact .fail _
  · next hcount =>
    have hcount : count < 255 := by simpa [arityLimit] using hcount
    refine .bind (hr .expression) fun first => .accept_bind (fun comma hcomma => ?_) (.pure ?_)
    · refine .bind (hr (.arguments (count + 1))) fun rest => .pure ?_
      intro z y hrest x hfirst
      exact ⟨.moreExpressions hfirst hcomma hrest.1, by have := hrest.2; simp only [List.length_cons]; omega⟩
    · intro y _ x hfirst
      exact ⟨.lastExpression hfirst, by simp only [List.length_singleton]; omega⟩

theorem reads_suffixes (inner : Expr) : Reads (suffixes rules inner) (Meaning (.suffixes inner)) := by
  refine .accept_bind (fun opening hopening => .ahead_bind ?_ ?_) ?_
  · refine .expectIf_bind fun closing hclosing => (hr (.suffixes (.call inner closing []))).imp ?_
    rintro x e y ⟨suffixes, hsuffixes, rfl⟩ -
    exact ⟨.call closing [] :: suffixes, .callNone hopening hclosing hsuffixes, rfl⟩
  · refine .bind (hr (.arguments 0)) fun arguments => .expectIf_bind fun closing hclosing => ?_
    refine (hr (.suffixes (.call inner closing arguments))).imp ?_
    rintro y e z ⟨suffixes, hsuffixes, rfl⟩ x ⟨harguments, hlen⟩ -
    exact ⟨.call closing arguments :: suffixes,
      .callSome hopening harguments (by simpa using hlen) hclosing hsuffixes, rfl⟩
  · refine .accept_bind (fun dot hdot => ?_) (.pure fun x _ _ => ⟨[], .noSuffix, rfl⟩)
    refine .expectIf_bind fun name hname => (hr (.suffixes (.get inner name))).imp ?_
    rintro x e y ⟨suffixes, hsuffixes, rfl⟩ -
    exact ⟨.property name :: suffixes, .property hdot hname hsuffixes, rfl⟩

theorem reads_rulesOver (hk : ∀ phrase, Keeps Cursor.Onward (rules phrase)) :
    ∀ phrase : Phrase, Reads (rulesOver rules phrase) (Meaning phrase)
  | .program => reads_program hr
  | .body => reads_body hr
  | .declaration => reads_declaration hr hk
  | .statement => reads_statement hr
  | .methods => reads_methods hr
  | .parameters count => reads_parameters hr count
  | .expression => reads_expression hr
  | .furtherValues => reads_furtherValues hr
  | .assignment => reads_assignment hr
  | .operand level => reads_operand hr level
  | .operators level left => reads_operators hr level left
  | .unary => reads_unary hr
  | .suffixes inner => reads_suffixes hr inner
  | .arguments count => reads_arguments hr count
  | .items => reads_items hr

end Productions

/-- What a phrase is read as without an error is its meaning by the grammar. -/
theorem reads_produce : ∀ (n : Nat) (phrase : Phrase), Reads (produce n phrase) (Meaning phrase)
  | 0, _ => fun _ _ _ h => by cases h
  | n + 1, phrase => reads_rulesOver (reads_produce n) (keeps_produce n) phrase

end Treewalk.Grammar
