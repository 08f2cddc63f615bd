import Treewalk.Proofs.Grammar.Acceptance

/-!
Programs side by side. What follows a phrase matters to two rules only: a name must not have an increment behind it, and
a branch that does without `else` must not have one behind it. A statement ends with its own last token, so no increment
can reach over its end, and no declaration begins with `else`. Therefore a program is derived in the same way whether the
tokens end behind it or another program follows.
-/

namespace Treewalk.Grammar

/-- The point with more tokens behind those ahead of it. -/
def Point.before (p : Point) (later : List Token) : Point := ⟨p.ahead ++ later, p.nextId⟩

/-- No increment can start with these tokens and end behind them. -/
def Seals (tokens : List Token) : Prop :=
  tokens ≠ [] ∧ ∀ t, tokens = [t] → ¬t.is .plus ∧ ¬t.is .minus

theorem seals_of_is {t : Token} {rest : List Token} {s : Symbol} (h : t.is s) (hs : s ≠ .plus ∧ s ≠ .minus) :
    Seals (t :: rest) := by
  refine ⟨List.cons_ne_nil t rest, fun t' ht => ?_⟩
  cases ht
  exact ⟨not_is_of_is h hs.1, not_is_of_is h hs.2⟩

theorem seals_cons_cons (first second : Token) (rest : List Token) : Seals (first :: second :: rest) :=
  ⟨List.cons_ne_nil _ _, fun t ht => by cases ht⟩

theorem NoIncrement.append {tokens : List Token} (h : NoIncrement tokens) (hs : Seals tokens) (later : List Token) :
    NoIncrement (tokens ++ later) := by
  intro first second rest htokens hpair
  match tokens with
  | [] => exact hs.1 rfl
  | [t] =>
    obtain ⟨hplus, hminus⟩ := hs.2 t rfl
    cases htokens
    rcases hpair.1 with ⟨hfirst, -⟩ | ⟨hfirst, -⟩
    · exact hplus hfirst
    · exact hminus hfirst
  | t :: u :: tokens =>
    cases htokens
    exact h _ _ tokens rfl hpair

theorem NotAhead.append {s : Symbol} {tokens later : List Token} (h : NotAhead s tokens) (hlater : NotAhead s later) :
    NotAhead s (tokens ++ later) := by
  match tokens with
  | [] => exact hlater
  | t :: tokens =>
    intro t' rest htokens
    cases htokens
    exact h t tokens rfl

/-- What must stand behind a phrase that may end with a name. -/
def Nonterminal.Sealed : Nonterminal → List Token → Prop
  | .expression, tokens | .expressions, tokens | .optionalExpression, tokens | .ternary, tokens
  | .assignment, tokens | .tier _, tokens | .operations _, tokens | .call, tokens | .suffixes, tokens
  | .primary, tokens => Seals tokens
  | _, _ => True

theorem Derives.seals_operations {tier : Tier} {p q : Point} {operations : List (Token × Expr)}
    (h : Derives (.operations tier) p operations q) (hq : Seals q.ahead) : Seals p.ahead := by
  cases h with
  | noOperation => exact hq
  | moreOperations _ _ hright _ =>
    obtain ⟨t, rest, htokens, -⟩ := hright.begins
    cases htokens
    exact seals_cons_cons _ _ _

theorem Derives.seals_suffixes {p q : Point} {suffixes : List Suffix} (h : Derives .suffixes p suffixes q)
    (hq : Seals q.ahead) : Seals p.ahead := by
  cases h with
  | noSuffix => exact hq
  | callNone => exact seals_cons_cons _ _ _
  | callSome hopening => exact seals_of_is hopening (by decide)
  | property => exact seals_cons_cons _ _ _

/-- Derivations do not change with what follows, if it neither completes an increment nor begins with `else`. -/
theorem Derives.before {later : List Token} (hlater : NotAhead .kwElse later) {n : Nonterminal} {p q : Point}
    {v : n.Tree} (h : Derives n p v q) (hq : n.Sealed q.ahead) : Derives n (p.before later) v (q.before later) := by
  induction h with
  | noDeclaration => exact .noDeclaration
  | moreDeclarations _ _ ih₁ ih₂ => exact .moreDeclarations (ih₁ trivial) (ih₂ hq)
  | baseClass hkeyword hname hopening _ hclosing ih => exact .baseClass hkeyword hname hopening (ih trivial) hclosing
  | subclass hkeyword hname hless hparent hopening _ hclosing ih =>
    exact .subclass hkeyword hname hless hparent hopening (ih trivial) hclosing
  | function hkeyword hname _ _ ih₁ ih₂ => exact .function hkeyword hname (ih₁ trivial) (ih₂ trivial)
  | «variable» _ ih => exact .variable (ih trivial)
  | library hkeyword hpath hsemicolon => exact .library hkeyword hpath hsemicolon
  | plain _ ih => exact .plain (ih trivial)
  | noMethod => exact .noMethod
  | moreMethods _ _ ih₁ ih₂ => exact .moreMethods (ih₁ trivial) (ih₂ trivial)
  | bareMethod hname _ ih => exact .bareMethod hname (ih trivial)
  | method hname _ _ ih₁ ih₂ => exact .method hname (ih₁ trivial) (ih₂ trivial)
  | noParameters hopening hclosing => exact .noParameters hopening hclosing
  | parameters hopening _ hcount hclosing ih => exact .parameters hopening (ih trivial) hcount hclosing
  | lastName hname => exact .lastName hname
  | moreNames hname hcomma _ ih => exact .moreNames hname hcomma (ih trivial)
  | bareVariable hkeyword hname hsemicolon => exact .bareVariable hkeyword hname hsemicolon
  | initializedVariable hkeyword hname hequals _ hsemicolon ih =>
    exact .initializedVariable hkeyword hname hequals (ih (seals_of_is hsemicolon (by decide))) hsemicolon
  | exprStmt _ hsemicolon ih => exact .exprStmt (ih (seals_of_is hsemicolon (by decide))) hsemicolon
  | expressionStatement _ ih => exact .expressionStatement (ih trivial)
  | print hkeyword _ hsemicolon ih => exact .print hkeyword (ih (seals_of_is hsemicolon (by decide))) hsemicolon
  | noLoopStart hsemicolon => exact .noLoopStart hsemicolon
  | loopVariable _ ih => exact .loopVariable (ih trivial)
  | loopExpression _ ih => exact .loopExpression (ih trivial)
  | loop hkeyword hopening _ _ hsemicolon _ hclosing _ ih₁ ih₂ ih₃ ih₄ =>
    exact .loop hkeyword hopening (ih₁ trivial) (ih₂ (seals_of_is hsemicolon (by decide))) hsemicolon
      (ih₃ (seals_of_is hclosing (by decide))) hclosing (ih₄ trivial)
  | whileLoop hkeyword hopening _ hclosing _ ih₁ ih₂ =>
    exact .whileLoop hkeyword hopening (ih₁ (seals_of_is hclosing (by decide))) hclosing (ih₂ trivial)
  | ifOnly hkeyword hopening _ hclosing _ hnone ih₁ ih₂ =>
    exact .ifOnly hkeyword hopening (ih₁ (seals_of_is hclosing (by decide))) hclosing (ih₂ trivial)
      (hnone.append hlater)
  | ifElse hkeyword hopening _ hclosing _ helse _ ih₁ ih₂ ih₃ =>
    exact .ifElse hkeyword hopening (ih₁ (seals_of_is hclosing (by decide))) hclosing (ih₂ trivial) helse
      (ih₃ trivial)
  | breakLoop hkeyword hsemicolon => exact .breakLoop hkeyword hsemicolon
  | returnValue hkeyword _ hsemicolon ih =>
    exact .returnValue hkeyword (ih (seals_of_is hsemicolon (by decide))) hsemicolon
  | inner _ ih => exact .inner (ih trivial)
  | block hopening _ hclosing ih => exact .block hopening (ih trivial) hclosing
  | lambda hkeyword _ _ ih₁ ih₂ => exact .lambda hkeyword (ih₁ trivial) (ih₂ trivial)
  | ternary _ ih => exact .ternary (ih hq)
  | lastExpression _ ih => exact .lastExpression (ih hq)
  | moreExpressions _ hcomma _ ih₁ ih₂ =>
    exact .moreExpressions (ih₁ (seals_of_is hcomma (by decide))) hcomma (ih₂ hq)
  | noExpression => exact .noExpression
  | someExpression _ ih => exact .someExpression (ih hq)
  | unconditional _ ih => exact .unconditional (ih hq)
  | conditional _ hquestion _ hcolon _ ih₁ ih₂ ih₃ =>
    exact .conditional (ih₁ (seals_of_is hquestion (by decide))) hquestion (ih₂ (seals_of_is hcolon (by decide))) hcolon
      (ih₃ hq)
  | assignName hname hequals _ ih => exact .assignName hname hequals (ih hq)
  | assignProperty _ hdot hname hequals _ ih₁ ih₂ =>
    exact .assignProperty (ih₁ (seals_of_is hdot (by decide))) hdot hname hequals (ih₂ hq)
  | unassigned _ ih => exact .unassigned (ih hq)
  | chain hchain _ hoperations ih₁ ih₂ => exact .chain hchain (ih₁ (hoperations.seals_operations hq)) (ih₂ hq)
  | noOperation => exact .noOperation
  | moreOperations hchain hoperator _ hrest ih₁ ih₂ =>
    exact .moreOperations hchain hoperator (ih₁ (hrest.seals_operations hq)) (ih₂ hq)
  | unary hoperator _ ih => exact .unary hoperator (ih hq)
  | operand _ ih => exact .operand (ih hq)
  | call _ hsuffixes ih₁ ih₂ => exact .call (ih₁ (hsuffixes.seals_suffixes hq)) (ih₂ hq)
  | noSuffix => exact .noSuffix
  | callNone hopening hclosing _ ih => exact .callNone hopening hclosing (ih hq)
  | callSome hopening _ hcount hclosing _ ih₁ ih₂ =>
    exact .callSome hopening (ih₁ (seals_of_is hclosing (by decide))) hcount hclosing (ih₂ hq)
  | property hdot hname _ ih => exact .property hdot hname (ih hq)
  | literal hvalue => exact .literal hvalue
  | this hkeyword => exact .this hkeyword
  | emptyArray hbracket hclosing => exact .emptyArray hbracket hclosing
  | array hbracket _ hclosing ih => exact .array hbracket (ih trivial) hclosing
  | global hkeyword hname => exact .global hkeyword hname
  | increment hname hpair => exact .increment hname hpair
  | subscript hname hopening _ hclosing ih =>
    exact .subscript hname hopening (ih (seals_of_is hclosing (by decide))) hclosing
  | name hname hnone => exact .name hname (hnone.append hq later)
  | grouping hopening _ hclosing ih => exact .grouping hopening (ih (seals_of_is hclosing (by decide))) hclosing
  | lastItem hvalue => exact .lastItem hvalue
  | moreItems hvalue hcomma _ ih => exact .moreItems hvalue hcomma (ih trivial)
  | lastNegative hminus hvalue => exact .lastNegative hminus hvalue
  | moreNegatives hminus hvalue hcomma _ ih => exact .moreNegatives hminus hvalue hcomma (ih trivial)

theorem Derives.notAhead_else {p q : Point} {s : Stmt} (h : Derives .declaration p s q) :
    NotAhead .kwElse p.ahead := by
  have begun {t : Token} {rest : List Token} {s : Symbol} (ht : t.is s) (hs : s ≠ .kwElse) :
      NotAhead .kwElse (t :: rest) := fun t' rest' htokens => by
    cases htokens
    exact not_is_of_is ht hs
  cases h with
  | baseClass hkeyword => exact begun hkeyword (by decide)
  | subclass hkeyword => exact begun hkeyword (by decide)
  | function hkeyword => exact begun hkeyword (by decide)
  | «variable» h =>
    obtain ⟨t, rest, htokens, hvar⟩ := h.begins
    rw [htokens]
    exact begun hvar (by decide)
  | library hkeyword => exact begun hkeyword (by decide)
  | plain h => exact BeginsStatement.notAhead h.begins (by decide)

theorem Derives.declarations_append {xs ys : List Stmt} {p q r : Point} (hxs : Derives .declarations p xs q)
    (hys : Derives .declarations q ys r) : Derives .declarations p (xs ++ ys) r := by
  induction xs generalizing p with
  | nil =>
    cases hxs
    exact hys
  | cons x xs ih =>
    cases hxs with
    | moreDeclarations hx hxs => exact .moreDeclarations hx (ih hxs)

/-- Two programs, one behind the other, are a program. -/
theorem Derives.juxtaposed {front later : List Token} {i j k : NodeId} {xs ys : List Stmt}
    (hxs : Derives .declarations ⟨front, i⟩ xs ⟨[], j⟩) (hys : Derives .declarations ⟨later, j⟩ ys ⟨[], k⟩) :
    Derives .declarations ⟨front ++ later, i⟩ (xs ++ ys) ⟨[], k⟩ := by
  have hlater : NotAhead .kwElse later := by
    cases hys with
    | noDeclaration => exact fun t rest h => by cases h
    | moreDeclarations hy _ => exact hy.notAhead_else
  exact (hxs.before hlater trivial).declarations_append hys

theorem parse_juxtaposed {i j k : NodeId} {ts us : List Token} {xs ys : List Stmt} (hts : parse i ts = ⟨xs, [], j⟩)
    (hus : parse j us = ⟨ys, [], k⟩) : parse i (ts.takeWhile (!·.isFinish) ++ us) = ⟨xs ++ ys, [], k⟩ := by
  refine parse_of_derives ?_
  rw [Point.start, List.takeWhile_append_of_pos fun t ht => List.all_eq_true.mp List.all_takeWhile t ht]
  exact (derives_of_parse_eq hts).juxtaposed (derives_of_parse_eq hus)

end Treewalk.Grammar
