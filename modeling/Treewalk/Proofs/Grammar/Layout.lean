import Treewalk.Grammar.Parse
import Treewalk.Proofs.Tree.Relabeling

/-!
The layout of a program does not matter to the grammar, apart from increments. Two lists of tokens that differ only in
lines and offsets, and have two signs without a gap at the same places, are read alike: the same trees up to labels,
and the same errors up to lines. The same holds for readings that start with different identities.
-/

namespace Treewalk

/-- The two tokens have the same label under the two relabelings. -/
abbrev Token.Alike (f g : Relabeling) (a b : Token) : Prop := a.relabel f = b.relabel g

/-- The error at its new line. -/
def ParseError.relabel (f : Relabeling) (e : ParseError) : ParseError := { e with token := e.token.relabel f }

/-- Identities that are drawn one after another stay so. -/
def Relabeling.Counts (f : Relabeling) : Prop := ∀ n, f.node (n + 1) = f.node n + 1

namespace Token.Alike

variable {f g : Relabeling} {a b : Token}

theorem kind (h : Alike f g a b) : a.kind = b.kind := (Token.mk.inj h).1

theorem is (h : Alike f g a b) (s : Symbol) : a.is s = b.is s := by rw [Token.is, Token.is, h.kind]

theorem isIdentifier (h : Alike f g a b) : a.isIdentifier = b.isIdentifier := by
  rw [Token.isIdentifier, Token.isIdentifier, h.kind]

theorem standIn (h : Alike f g a b) (kind : Token.Kind) (lexeme : String) :
    Alike f g (Token.standIn kind lexeme a) (Token.standIn kind lexeme b) := by
  obtain ⟨-, -, hline, hoffset⟩ := Token.mk.inj h
  simp only [Alike, Token.relabel, Token.standIn, hline, hoffset]

end Token.Alike

namespace Grammar

/-- Two equal signs, plus or minus, stand at the front without a gap. -/
def gapless : List Token → Bool
  | first :: second :: _ =>
    ((first.is .plus && second.is .plus) || (first.is .minus && second.is .minus))
      && second.offset == first.offset + 1
  | _ => false

/-- The tokens are alike one by one, with two signs without a gap at the same places. -/
def SameLayout (f g : Relabeling) : List Token → List Token → Prop
  | [], [] => True
  | a :: as, b :: bs => Token.Alike f g a b ∧ gapless (a :: as) = gapless (b :: bs) ∧ SameLayout f g as bs
  | _, _ => False

/-- Two positions in lists of tokens with the same layout. -/
structure Cursor.Twin (f g : Relabeling) (c d : Cursor) : Prop where
  ahead : SameLayout f g c.ahead d.ahead
  last : Token.Alike f g c.last d.last
  finish : Token.Alike f g c.finish d.finish
  nextId : f.node c.nextId = g.node d.nextId
  errors : c.errors.map (·.relabel f) = d.errors.map (·.relabel g)

/-- Two readings that come to the same: related results, or the same error. -/
def Parsed.Twin (f g : Relabeling) {α β : Type} (V : α → β → Prop) : Parsed α → Parsed β → Prop
  | .ok a c, .ok b d => V a b ∧ c.Twin f g d
  | .failed e c, .failed e' d => e.relabel f = e'.relabel g ∧ c.Twin f g d
  | .exhausted, .exhausted => True
  | _, _ => False

/-- Two productions that come to the same from positions with the same layout. -/
def Mates (f g : Relabeling) {α β : Type} (V : α → β → Prop) (p : Production α) (q : Production β) : Prop :=
  ∀ c d, Cursor.Twin f g c d → (p c).Twin f g V (q d)

variable {f g : Relabeling} {α β γ δ : Type} {V : α → β → Prop} {W : γ → δ → Prop} {c d : Cursor}

/-! ### Positions -/

theorem SameLayout.cases {as bs : List Token} (h : SameLayout f g as bs) :
    (as = [] ∧ bs = []) ∨ ∃ a as' b bs', as = a :: as' ∧ bs = b :: bs' ∧ Token.Alike f g a b ∧
      gapless (a :: as') = gapless (b :: bs') ∧ SameLayout f g as' bs' := by
  match as, bs, h with
  | [], [], _ => exact Or.inl ⟨rfl, rfl⟩
  | a :: as, b :: bs, ⟨hab, hgap, hrest⟩ => exact Or.inr ⟨a, as, b, bs, rfl, rfl, hab, hgap, hrest⟩

namespace Cursor.Twin

theorem atEnd (h : c.Twin f g d) : c.atEnd = d.atEnd := by
  unfold Cursor.atEnd
  rcases h.ahead.cases with ⟨hc, hd⟩ | ⟨a, as, b, bs, hc, hd, -, -, -⟩
  · rw [hc, hd]
  · rw [hc, hd]
    rfl

theorem peek (h : c.Twin f g d) : Token.Alike f g c.peek d.peek := by
  unfold Cursor.peek
  rcases h.ahead.cases with ⟨hc, hd⟩ | ⟨a, as, b, bs, hc, hd, hab, -, -⟩ <;> rw [hc, hd]
  · exact h.finish
  · exact hab

theorem check (h : c.Twin f g d) {p : Token → Bool} (hp : ∀ a b, Token.Alike f g a b → p a = p b) :
    c.check p = d.check p := by
  unfold Cursor.check
  rcases h.ahead.cases with ⟨hc, hd⟩ | ⟨a, as, b, bs, hc, hd, hab, -, -⟩
  · rw [hc, hd]
  · rw [hc, hd]
    exact hp a b hab

theorem checkSecond (h : c.Twin f g d) {p : Token → Bool} (hp : ∀ a b, Token.Alike f g a b → p a = p b) :
    c.checkSecond p = d.checkSecond p := by
  unfold Cursor.checkSecond
  rcases h.ahead.cases with ⟨hc, hd⟩ | ⟨a, as, b, bs, hc, hd, -, -, hrest⟩
  · rw [hc, hd]
  · rw [hc, hd, List.tail_cons, List.tail_cons]
    rcases hrest.cases with ⟨has, hbs⟩ | ⟨a₂, as₂, b₂, bs₂, has, hbs, hab₂, -, -⟩
    · rw [has, hbs]
    · rw [has, hbs]
      exact hp a₂ b₂ hab₂

theorem incrementAhead (h : c.Twin f g d) : incrementAhead c = incrementAhead d := by
  have hgap : ∀ c : Cursor, Grammar.incrementAhead c = gapless c.ahead := fun _ => rfl
  rw [hgap, hgap]
  rcases h.ahead.cases with ⟨hc, hd⟩ | ⟨a, as, b, bs, hc, hd, -, hsame, -⟩
  · rw [hc, hd]
  · rw [hc, hd]
    exact hsame

theorem advance (h : c.Twin f g d) : c.advance.Twin f g d.advance := by
  unfold Cursor.advance
  rcases h.ahead.cases with ⟨hc, hd⟩ | ⟨a, as, b, bs, hc, hd, hab, -, hrest⟩ <;> rw [hc, hd]
  · exact h
  · exact ⟨hrest, hab, h.finish, h.nextId, h.errors⟩

theorem report (h : c.Twin f g d) {e e' : ParseError} (he : e.relabel f = e'.relabel g) :
    (c.report e).Twin f g (d.report e') := by
  refine ⟨h.ahead, h.last, h.finish, h.nextId, ?_⟩
  simp only [Cursor.report, List.map_append, h.errors, List.map_cons, he, List.map_nil]

theorem skip {last last' : Token} (hl : Token.Alike f g last last') : ∀ {as bs : List Token}, SameLayout f g as bs →
    Token.Alike f g (Cursor.skip last as).1 (Cursor.skip last' bs).1 ∧
      SameLayout f g (Cursor.skip last as).2 (Cursor.skip last' bs).2 := by
  intro as
  induction as generalizing last last' with
  | nil =>
    intro bs h
    cases bs with
    | nil => exact ⟨hl, trivial⟩
    | cons b bs => exact h.elim
  | cons a as ih =>
    intro bs h
    cases bs with
    | nil => exact h.elim
    | cons b bs =>
      have hstarts : Cursor.startsStatement a = Cursor.startsStatement b := by
        simp only [Cursor.startsStatement, List.any_cons, List.any_nil, h.1.is]
      simp only [Cursor.skip, hl.is, hstarts]
      split
      · exact ⟨hl, h⟩
      · exact ih h.1 h.2.2

theorem resume (h : c.Twin f g d) : c.resume.Twin f g d.resume := by
  have ha := h.advance
  obtain ⟨hlast, hahead⟩ := skip ha.last ha.ahead
  exact ⟨hahead, hlast, ha.finish, ha.nextId, ha.errors⟩

end Cursor.Twin

/-! ### Elementary productions -/

namespace Mates

theorem pure {a : α} {b : β} (h : V a b) : Mates f g V (Pure.pure a) (Pure.pure b) := fun _ _ hc => ⟨h, hc⟩

theorem bind {p : Production α} {q : Production β} {k : α → Production γ} {l : β → Production δ}
    (hp : Mates f g V p q) (hk : ∀ a b, V a b → Mates f g W (k a) (l b)) : Mates f g W (p >>= k) (q >>= l) := by
  intro c d hc
  have h := hp c d hc
  show (Production.bind p k c).Twin f g W (Production.bind q l d)
  unfold Production.bind
  cases hpc : p c <;> cases hqd : q d <;> rw [hpc, hqd] at h
  case ok.ok a c' b d' => exact hk a b h.1 c' d' h.2
  case failed.failed => exact h
  case exhausted.exhausted => trivial
  all_goals exact h.elim

theorem map {p : Production α} {q : Production β} {k : α → γ} {l : β → δ} (hp : Mates f g V p q)
    (h : ∀ a b, V a b → W (k a) (l b)) : Mates f g W (k <$> p) (l <$> q) :=
  hp.bind fun a b hab => pure (h a b hab)

theorem discard {p : Production α} {q : Production β} (hp : Mates f g V p q) :
    Mates f g Eq (Functor.discard p) (Functor.discard q) :=
  hp.bind fun _ _ _ => pure rfl

theorem look {k l : Cursor → α} (h : ∀ c d, Cursor.Twin f g c d → k c = l d) :
    Mates f g Eq (Production.look k) (Production.look l) := fun c d hc => ⟨h c d hc, hc⟩

theorem ahead (s : Symbol) : Mates f g Eq (Production.ahead s) (Production.ahead s) :=
  look fun _ _ hc => hc.check fun _ _ hab => hab.is s

theorem failAt {a b : Token} (h : Token.Alike f g a b) (fault : ParseFault) :
    Mates f g V (Production.failAt a fault) (Production.failAt b fault) := fun _ _ hc => by
  refine ⟨?_, hc⟩
  rw [ParseError.relabel, ParseError.relabel]
  exact congrArg (ParseError.mk · fault) h

theorem fail (fault : ParseFault) : Mates f g V (Production.fail fault) (Production.fail fault) :=
  fun c d hc => failAt hc.peek fault c d hc

theorem report {a b : Token} (h : Token.Alike f g a b) (fault : ParseFault) :
    Mates f g Eq (Production.report a fault) (Production.report b fault) := fun _ _ hc =>
  ⟨rfl, hc.report (congrArg (ParseError.mk · fault) h)⟩

theorem fresh (hf : f.Counts) (hg : g.Counts) :
    Mates f g (fun i j => f.node i = g.node j) Production.fresh Production.fresh := fun _ _ hc =>
  ⟨hc.nextId, hc.ahead, hc.last, hc.finish, by rw [hf, hg, hc.nextId], hc.errors⟩

theorem advance : Mates f g (Token.Alike f g) Production.advance Production.advance := fun _ _ hc =>
  ⟨hc.advance.last, hc.advance⟩

theorem acceptIf {p : Token → Bool} (hp : ∀ a b, Token.Alike f g a b → p a = p b) :
    Mates f g (Option.Rel (Token.Alike f g)) (Production.acceptIf p) (Production.acceptIf p) := fun c d hc => by
  unfold Production.acceptIf
  rw [hc.check hp]
  split
  · exact ⟨.some hc.advance.last, hc.advance⟩
  · exact ⟨.none, hc⟩

theorem accept (s : Symbol) :
    Mates f g (Option.Rel (Token.Alike f g)) (Production.accept s) (Production.accept s) :=
  acceptIf fun _ _ h => h.is s

theorem acceptAny (symbols : List Symbol) :
    Mates f g (Option.Rel (Token.Alike f g)) (Production.acceptAny symbols) (Production.acceptAny symbols) :=
  acceptIf fun a b h => by
    have his : a.is = b.is := funext h.is
    rw [his]

theorem expectIf {p : Token → Bool} (hp : ∀ a b, Token.Alike f g a b → p a = p b) (what : Expected) :
    Mates f g (Token.Alike f g) (Production.expectIf p what) (Production.expectIf p what) := fun c d hc => by
  unfold Production.expectIf
  rw [hc.check hp]
  split
  · exact ⟨hc.advance.last, hc.advance⟩
  · exact fail (V := Token.Alike f g) (.expected what) c d hc

theorem expect (s : Symbol) (what : Expected) :
    Mates f g (Token.Alike f g) (Production.expect s what) (Production.expect s what) :=
  expectIf (fun _ _ h => h.is s) what

theorem expectName (what : Expected) :
    Mates f g (Token.Alike f g) (Production.expectName what) (Production.expectName what) :=
  expectIf (fun _ _ h => h.isIdentifier) what

end Mates

/-! ### Trees -/

/-- The expressions have the same labels under the two relabelings. -/
abbrev Same (f g : Relabeling) (x y : Expr) : Prop := x.relabel f = y.relabel g

/-- The lists of expressions have the same labels under the two relabelings. -/
abbrev SameValues (f g : Relabeling) (xs ys : List Expr) : Prop := Expr.relabelAll f xs = Expr.relabelAll g ys

/-- The statements have the same labels under the two relabelings. -/
abbrev SameStatement (f g : Relabeling) (x y : Stmt) : Prop := x.relabel f = y.relabel g

/-- The lists of statements have the same labels under the two relabelings. -/
abbrev SameBody (f g : Relabeling) (xs ys : List Stmt) : Prop := Stmt.relabelAll f xs = Stmt.relabelAll g ys

/-- The routines have the same labels under the two relabelings. -/
abbrev SameRoutine (f g : Relabeling) (x y : Routine) : Prop := x.relabel f = y.relabel g

/-- The lists of routines have the same labels under the two relabelings. -/
abbrev SameMethods (f g : Relabeling) (xs ys : List Routine) : Prop := Routine.relabelAll f xs = Routine.relabelAll g ys

/-- The lists of tokens have the same labels under the two relabelings. -/
abbrev SameNames (f g : Relabeling) (xs ys : List Token) : Prop := xs.map (·.relabel f) = ys.map (·.relabel g)

/-- Two productions for each phrase, so that those of one phrase come to the same trees up to labels. A phrase that
continues a tree continues trees that are the same up to labels. -/
structure Rules.Mate (f g : Relabeling) (rules others : Rules) : Prop where
  program : Mates f g (SameBody f g) (rules .program) (others .program)
  body : Mates f g (SameBody f g) (rules .body) (others .body)
  declaration : Mates f g (Option.Rel (SameStatement f g)) (rules .declaration) (others .declaration)
  statement : Mates f g (SameStatement f g) (rules .statement) (others .statement)
  methods : Mates f g (SameMethods f g) (rules .methods) (others .methods)
  parameters : ∀ count, Mates f g (SameNames f g) (rules (.parameters count)) (others (.parameters count))
  expression : Mates f g (Same f g) (rules .expression) (others .expression)
  furtherValues : Mates f g (SameValues f g) (rules .furtherValues) (others .furtherValues)
  assignment : Mates f g (Same f g) (rules .assignment) (others .assignment)
  operand : ∀ level, Mates f g (Same f g) (rules (.operand level)) (others (.operand level))
  operators : ∀ level x y, Same f g x y →
    Mates f g (Same f g) (rules (.operators level x)) (others (.operators level y))
  unary : Mates f g (Same f g) (rules .unary) (others .unary)
  suffixes : ∀ x y, Same f g x y → Mates f g (Same f g) (rules (.suffixes x)) (others (.suffixes y))
  arguments : ∀ count, Mates f g (SameValues f g) (rules (.arguments count)) (others (.arguments count))
  items : Mates f g Eq (rules .items) (others .items)

section Trees
variable {x x' y y' : Expr} {xs xs' : List Expr} {s s' t t' : Stmt} {body body' : List Stmt} {r r' : Routine}
  {methods methods' : List Routine} {a a' b b' : Token} {names names' : List Token}

theorem SameValues.cons (h : Same f g x x') (hs : SameValues f g xs xs') : SameValues f g (x :: xs) (x' :: xs') := by
  rw [SameValues, Expr.relabelAll, Expr.relabelAll, h, hs]

theorem SameMethods.cons (h : SameRoutine f g r r') (hs : SameMethods f g methods methods') :
    SameMethods f g (r :: methods) (r' :: methods') := by
  rw [SameMethods, Routine.relabelAll, Routine.relabelAll, h, hs]

theorem SameNames.cons (h : Token.Alike f g a a') (hs : SameNames f g names names') :
    SameNames f g (a :: names) (a' :: names') := by
  rw [SameNames, List.map_cons, List.map_cons, h, hs]

theorem SameBody.cons (h : SameStatement f g s s') (hs : SameBody f g body body') :
    SameBody f g (s :: body) (s' :: body') := by
  rw [SameBody, Stmt.relabelAll, Stmt.relabelAll, h, hs]

theorem SameBody.behind {o o' : Option Stmt} (h : Option.Rel (SameStatement f g) o o')
    (hs : SameBody f g body body') : SameBody f g (o.toList ++ body) (o'.toList ++ body') := by
  cases h with
  | some h => exact hs.cons h
  | none => exact hs

theorem SameRoutine.mk (ha : Token.Alike f g a a') (hn : SameNames f g names names') (hb : SameBody f g body body') :
    SameRoutine f g ⟨a, names, body⟩ ⟨a', names', body'⟩ := by
  rw [SameRoutine, Routine.relabel, Routine.relabel, ha, hn, hb]

theorem Same.var_left {id : NodeId} (h : Same f g (.var id a) x) :
    ∃ id' b, x = .var id' b ∧ f.node id = g.node id' ∧ Token.Alike f g a b := by
  cases x with
  | var id' b => exact ⟨id', b, rfl, Expr.var.inj h⟩
  | _ => cases h

theorem Same.get_left (h : Same f g (.get x a) y) : ∃ y' b, y = .get y' b ∧ Same f g x y' ∧ Token.Alike f g a b := by
  cases y with
  | get y' b => exact ⟨y', b, rfl, Expr.get.inj h⟩
  | _ => cases h

theorem Same.combine (level : Level) (hx : Same f g x x') (ha : Token.Alike f g a a') (hy : Same f g y y') :
    Same f g (level.combine x a y) (level.combine x' a' y') := by
  cases level <;> simp only [Level.combine, Same, Expr.relabel, hx, ha, hy]

theorem SameStatement.loopTree {first first' : Option Stmt} {last last' : Option Expr}
    (hfirst : Option.Rel (SameStatement f g) first first') (hx : Same f g x x')
    (hlast : Option.Rel (Same f g) last last') (hs : SameStatement f g s s') :
    SameStatement f g (loopTree first x last s) (loopTree first' x' last' s') := by
  cases hfirst <;> cases hlast
  case some.some hfirst _ _ hlast =>
    simp only [SameStatement, Grammar.loopTree, Stmt.relabel, Stmt.relabelAll, hfirst, hlast, hx, hs]
  case some.none hfirst => simp only [SameStatement, Grammar.loopTree, Stmt.relabel, Stmt.relabelAll, hfirst, hx, hs]
  case none.some hlast => simp only [SameStatement, Grammar.loopTree, Stmt.relabel, Stmt.relabelAll, hlast, hx, hs]
  case none.none => simp only [SameStatement, Grammar.loopTree, Stmt.relabel, hx, hs]

end Trees

/-! ### Productions -/

section Productions
variable {rules others : Rules} (hr : Rules.Mate f g rules others)
include hr

theorem mates_block : Mates f g (SameBody f g) (block rules) (block others) :=
  hr.body.bind fun _ _ hb => (Mates.expect _ _).discard.bind fun _ _ _ => .pure hb

theorem mates_parameterList : Mates f g (SameNames f g) (parameterList rules) (parameterList others) := by
  refine (Mates.ahead _).bind fun x y hxy => ?_
  have finish : ∀ params params' : List Token, SameNames f g params params' → Mates f g (SameNames f g) (do
      discard (Production.expect .rightParen .parametersEnd)
      return params) (do
      discard (Production.expect .rightParen .parametersEnd)
      return params') := fun _ _ h => (Mates.expect _ _).discard.bind fun _ _ _ => .pure h
  subst hxy
  cases x with
  | true => exact (Mates.pure (V := SameNames f g) rfl).bind finish
  | false => exact (hr.parameters 0).bind finish

theorem mates_parameters (count : Nat) :
    Mates f g (SameNames f g) (parameters rules count) (parameters others count) := by
  unfold parameters
  split
  · exact Mates.fail _
  · refine (Mates.expectName _).bind fun name name' hn => (Mates.accept _).bind fun x y hxy => ?_
    cases hxy with
    | some _ => exact (hr.parameters (count + 1)).bind fun _ _ hrest => .pure (hrest.cons hn)
    | none => exact Mates.pure (SameNames.cons hn rfl)

theorem mates_routine (kind : RoutineKind) :
    Mates f g (SameRoutine f g) (routine rules kind) (routine others kind) := by
  refine (Mates.expectName _).bind fun name name' hn => (Mates.ahead _).bind fun bare bare' hbare => ?_
  have finish : ∀ params params' : List Token, SameNames f g params params' → Mates f g (SameRoutine f g) (do
      discard (Production.expect .leftBrace (.routineBody kind))
      let body ← block rules
      return ⟨name, params, body⟩) (do
      discard (Production.expect .leftBrace (.routineBody kind))
      let body ← block others
      return ⟨name', params', body⟩) := fun _ _ hp =>
    (Mates.expect _ _).discard.bind fun _ _ _ => (mates_block hr).bind fun _ _ hb => .pure (.mk hn hp hb)
  subst hbare
  split
  · exact (Mates.pure (V := SameNames f g) rfl).bind finish
  · exact (Mates.expect _ _).discard.bind fun _ _ _ => (mates_parameterList hr).bind finish

theorem mates_varDeclaration : Mates f g (SameStatement f g) (varDeclaration rules) (varDeclaration others) := by
  refine (Mates.expectName _).bind fun name name' hn => (Mates.accept _).bind fun x y hxy => ?_
  have finish : ∀ value value' : Option Expr, Option.Rel (Same f g) value value' → Mates f g (SameStatement f g) (do
      discard (Production.expect .semicolon .variableEnd)
      return Stmt.varDecl name value) (do
      discard (Production.expect .semicolon .variableEnd)
      return Stmt.varDecl name' value') := by
    refine fun _ _ hv => (Mates.expect _ _).discard.bind fun _ _ _ => .pure ?_
    cases hv with
    | some hv => rw [SameStatement, Stmt.relabel, Stmt.relabel, hn, hv]
    | none => rw [SameStatement, Stmt.relabel, Stmt.relabel, hn]
  cases hxy with
  | some _ => exact hr.expression.bind fun _ _ hv => (Mates.pure (.some hv)).bind finish
  | none => exact (Mates.pure .none).bind finish

theorem mates_expressionStatement :
    Mates f g (SameStatement f g) (expressionStatement rules) (expressionStatement others) :=
  hr.expression.bind fun _ _ hv => (Mates.expect _ _).discard.bind fun _ _ _ =>
    Mates.pure (by rw [SameStatement, Stmt.relabel, Stmt.relabel, hv])

theorem mates_loopInitializer :
    Mates f g (Option.Rel (SameStatement f g)) (loopInitializer rules) (loopInitializer others) := by
  refine (Mates.accept _).bind fun x y hxy => ?_
  cases hxy with
  | some _ => exact Mates.pure .none
  | none =>
    refine (Mates.accept _).bind fun x y hxy => ?_
    cases hxy with
    | some _ => exact (mates_varDeclaration hr).map fun _ _ h => .some h
    | none => exact (mates_expressionStatement hr).map fun _ _ h => .some h

theorem mates_expressionUnless (s : Symbol) :
    Mates f g (Option.Rel (Same f g)) (expressionUnless rules s) (expressionUnless others s) := by
  refine (Mates.ahead _).bind fun x y hxy => ?_
  subst hxy
  cases x with
  | true => exact Mates.pure .none
  | false => exact hr.expression.bind fun _ _ h => .pure (.some h)

theorem mates_forStatement : Mates f g (SameStatement f g) (forStatement rules) (forStatement others) := by
  refine (Mates.expect _ _).discard.bind fun _ _ _ => (mates_loopInitializer hr).bind fun _ _ hfirst =>
    (mates_expressionUnless hr _).bind fun x y hx => (Mates.expect _ _).discard.bind fun _ _ _ =>
      (mates_expressionUnless hr _).bind fun _ _ hlast => (Mates.expect _ _).discard.bind fun _ _ _ =>
        hr.statement.bind fun _ _ hs => .pure (.loopTree hfirst ?_ hlast hs)
  cases hx with
  | some h => exact h
  | none => rfl

theorem mates_ifStatement : Mates f g (SameStatement f g) (ifStatement rules) (ifStatement others) := by
  refine (Mates.expect _ _).discard.bind fun _ _ _ => hr.expression.bind fun _ _ hx =>
    (Mates.expect _ _).discard.bind fun _ _ _ => hr.statement.bind fun _ _ hyes =>
      (Mates.accept _).bind fun x y hxy => ?_
  cases hxy with
  | some _ =>
    exact hr.statement.bind fun _ _ hno =>
      Mates.pure (by rw [SameStatement, Stmt.relabel, Stmt.relabel, hx, hyes, hno])
  | none => exact Mates.pure (by rw [SameStatement, Stmt.relabel, Stmt.relabel, hx, hyes])

theorem mates_whileStatement : Mates f g (SameStatement f g) (whileStatement rules) (whileStatement others) :=
  (Mates.expect _ _).discard.bind fun _ _ _ => hr.expression.bind fun _ _ hx =>
    (Mates.expect _ _).discard.bind fun _ _ _ => hr.statement.bind fun _ _ hs =>
      Mates.pure (by rw [SameStatement, Stmt.relabel, Stmt.relabel, hx, hs])

omit hr in
theorem mates_breakStatement {a b : Token} (h : Token.Alike f g a b) :
    Mates f g (SameStatement f g) (breakStatement a) (breakStatement b) :=
  (Mates.expect _ _).discard.bind fun _ _ _ => .pure (by rw [SameStatement, Stmt.relabel, Stmt.relabel, h])

theorem mates_returnStatement {a b : Token} (h : Token.Alike f g a b) :
    Mates f g (SameStatement f g) (returnStatement rules a) (returnStatement others b) := by
  refine (mates_expressionUnless hr _).bind fun x y hx => (Mates.expect _ _).discard.bind fun _ _ _ => .pure ?_
  cases hx with
  | some hx => rw [SameStatement, Stmt.relabel, Stmt.relabel, h, hx]
  | none => rw [SameStatement, Stmt.relabel, Stmt.relabel, h]

theorem mates_printStatement {a b : Token} (h : Token.Alike f g a b) :
    Mates f g (SameStatement f g) (printStatement rules a) (printStatement others b) :=
  hr.expression.bind fun _ _ hx => hr.furtherValues.bind fun _ _ hxs => (Mates.expect _ _).discard.bind fun _ _ _ =>
    Mates.pure (by rw [SameStatement, Stmt.relabel, Stmt.relabel, h, hxs.cons hx])

theorem mates_statement : Mates f g (SameStatement f g) (statement rules) (statement others) := by
  refine (Mates.accept _).bind fun x y hxy => ?_
  cases hxy with
  | some _ => exact mates_forStatement hr
  | none =>
  refine (Mates.accept _).bind fun x y hxy => ?_
  cases hxy with
  | some _ => exact mates_ifStatement hr
  | none =>
  refine (Mates.accept _).bind fun x y hxy => ?_
  cases hxy with
  | some _ => exact mates_whileStatement hr
  | none =>
  refine (Mates.accept _).bind fun x y hxy => ?_
  cases hxy with
  | some h => exact mates_breakStatement h
  | none =>
  refine (Mates.accept _).bind fun x y hxy => ?_
  cases hxy with
  | some h => exact mates_returnStatement hr h
  | none =>
  refine (Mates.accept _).bind fun x y hxy => ?_
  cases hxy with
  | some _ => exact (mates_block hr).map fun _ _ hb => by rw [SameStatement, Stmt.relabel, Stmt.relabel, hb]
  | none =>
  refine (Mates.accept _).bind fun x y hxy => ?_
  cases hxy with
  | some h => exact mates_printStatement hr h
  | none => exact mates_expressionStatement hr

theorem mates_methods : Mates f g (SameMethods f g) (methods rules) (methods others) := by
  refine (Mates.look fun c d h => by rw [h.atEnd, h.check fun _ _ hab => hab.is .rightBrace]).bind
    fun x y hxy => ?_
  subst hxy
  cases x with
  | true => exact Mates.pure rfl
  | false =>
    exact (mates_routine hr _).bind fun _ _ hfirst => hr.methods.bind fun _ _ hrest => .pure (hrest.cons hfirst)

theorem mates_classDeclaration (hf : f.Counts) (hg : g.Counts) :
    Mates f g (SameStatement f g) (classDeclaration rules) (classDeclaration others) := by
  refine (Mates.expectName _).bind fun name name' hn => (Mates.accept _).bind fun x y hxy => ?_
  have finish : ∀ parent parent' : Option Expr, Option.Rel (Same f g) parent parent' →
      Mates f g (SameStatement f g) (do
        discard (Production.expect .leftBrace .classBody)
        let methods : List Routine ← rules .methods
        discard (Production.expect .rightBrace .classEnd)
        return Stmt.classDecl name parent methods) (do
        discard (Production.expect .leftBrace .classBody)
        let methods : List Routine ← others .methods
        discard (Production.expect .rightBrace .classEnd)
        return Stmt.classDecl name' parent' methods) := by
    refine fun _ _ hparent => (Mates.expect _ _).discard.bind fun _ _ _ => hr.methods.bind fun _ _ hm =>
      (Mates.expect _ _).discard.bind fun _ _ _ => .pure ?_
    cases hparent with
    | some hparent => rw [SameStatement, Stmt.relabel, Stmt.relabel, hn, hparent, hm]
    | none => rw [SameStatement, Stmt.relabel, Stmt.relabel, hn, hm]
  cases hxy with
  | some _ =>
    exact (Mates.expectName _).bind fun _ _ hparent => (Mates.fresh hf hg).bind fun _ _ hid =>
      (Mates.pure (.some (by rw [Same, Expr.relabel, Expr.relabel, hid, hparent]))).bind finish
  | none => exact (Mates.pure .none).bind finish

omit hr in
theorem mates_useDeclaration {a b : Token} (h : Token.Alike f g a b) :
    Mates f g (SameStatement f g) (useDeclaration a) (useDeclaration b) :=
  (Mates.expectIf (fun _ _ hab => by rw [isPath, isPath, hab.kind]) _).bind fun _ _ hpath =>
    (Mates.expect _ _).discard.bind fun _ _ _ =>
      Mates.pure (by rw [SameStatement, Stmt.relabel, Stmt.relabel, h, hpath])

theorem mates_declared (hf : f.Counts) (hg : g.Counts) :
    Mates f g (SameStatement f g) (declared rules) (declared others) := by
  refine (Mates.accept _).bind fun x y hxy => ?_
  cases hxy with
  | some _ => exact mates_classDeclaration hr hf hg
  | none =>
  refine (Mates.look fun c d h => by
    rw [h.check fun _ _ hab => hab.is .kwFun, h.checkSecond fun _ _ hab => hab.isIdentifier]).bind fun x y hxy => ?_
  subst hxy
  cases x with
  | true =>
    exact Mates.advance.discard.bind fun _ _ _ => (mates_routine hr _).bind fun _ _ h =>
      Mates.pure (by rw [SameStatement, Stmt.relabel, Stmt.relabel, h])
  | false =>
  refine (Mates.accept _).bind fun x y hxy => ?_
  cases hxy with
  | some _ => exact mates_varDeclaration hr
  | none =>
  refine (Mates.accept _).bind fun x y hxy => ?_
  cases hxy with
  | some h => exact mates_useDeclaration h
  | none => exact hr.statement

theorem mates_declaration (hf : f.Counts) (hg : g.Counts) :
    Mates f g (Option.Rel (SameStatement f g)) (declaration rules) (declaration others) := by
  intro c d hc
  have h := mates_declared hr hf hg c d hc
  unfold declaration
  cases hcs : declared rules c <;> cases hds : declared others d <;> rw [hcs, hds] at h
  case ok.ok s c' t d' => exact ⟨.some h.1, h.2⟩
  case failed.failed e c' e' d' => exact ⟨.none, (h.2.report h.1).resume⟩
  case exhausted.exhausted => trivial
  all_goals exact h.elim

theorem mates_body : Mates f g (SameBody f g) (body rules) (body others) := by
  refine (Mates.look fun c d h => by rw [h.atEnd, h.check fun _ _ hab => hab.is .rightBrace]).bind
    fun x y hxy => ?_
  subst hxy
  cases x with
  | true => exact Mates.pure rfl
  | false =>
    exact hr.declaration.bind fun _ _ hfirst => hr.body.bind fun _ _ hrest => .pure (hrest.behind hfirst)

theorem mates_program : Mates f g (SameBody f g) (program rules) (program others) := by
  refine (Mates.look fun c d h => h.atEnd).bind fun x y hxy => ?_
  subst hxy
  cases x with
  | true => exact Mates.pure rfl
  | false =>
    exact hr.declaration.bind fun _ _ hfirst => hr.program.bind fun _ _ hrest => .pure (hrest.behind hfirst)

theorem mates_furtherValues : Mates f g (SameValues f g) (furtherValues rules) (furtherValues others) := by
  refine (Mates.accept _).bind fun x y hxy => ?_
  cases hxy with
  | some _ =>
    exact hr.expression.bind fun _ _ hfirst => hr.furtherValues.bind fun _ _ hrest => .pure (hrest.cons hfirst)
  | none => exact Mates.pure rfl

theorem mates_lambda {a b : Token} (h : Token.Alike f g a b) :
    Mates f g (Same f g) (lambda rules a) (lambda others b) :=
  (Mates.expect _ _).discard.bind fun _ _ _ => (mates_parameterList hr).bind fun _ _ hp =>
    (Mates.expect _ _).discard.bind fun _ _ _ => (mates_block hr).bind fun _ _ hb =>
      Mates.pure (congrArg Expr.lambda (SameRoutine.mk (h.standIn _ _) hp hb))

theorem mates_expression : Mates f g (Same f g) (expression rules) (expression others) := by
  refine (Mates.accept _).bind fun x y hxy => ?_
  cases hxy with
  | some h => exact mates_lambda hr h
  | none =>
    refine hr.assignment.bind fun _ _ hx => (Mates.accept _).bind fun x y hxy => ?_
    cases hxy with
    | some h =>
      exact (hr.operand .equality).bind fun _ _ hyes => (Mates.expect _ _).discard.bind fun _ _ _ =>
        (hr.operand .equality).bind fun _ _ hno =>
          Mates.pure (by rw [Same, Expr.relabel, Expr.relabel, hx, h, hyes, hno])
    | none => exact Mates.pure hx

theorem mates_assignment (hf : f.Counts) (hg : g.Counts) :
    Mates f g (Same f g) (assignment rules) (assignment others) := by
  refine (hr.operand .or).bind fun target target' ht => (Mates.accept _).bind fun x y hxy => ?_
  cases hxy with
  | none => exact Mates.pure ht
  | some h =>
    refine hr.assignment.bind fun _ _ hx => ?_
    -- Trees with the same labels have the same form, so both can be assigned to, or neither.
    cases target with
    | var id name =>
      obtain ⟨id', name', rfl, -, hname⟩ := ht.var_left
      exact (Mates.fresh hf hg).bind fun _ _ hid =>
        Mates.pure (by rw [Same, Expr.relabel, Expr.relabel, hid, hname, hx])
    | get object name =>
      obtain ⟨object', name', rfl, hobject, hname⟩ := ht.get_left
      exact Mates.pure (by rw [Same, Expr.relabel, Expr.relabel, hobject, hname, hx])
    | _ =>
      cases target' with
      | var | get => cases ht
      | _ => exact (Mates.report h _).bind fun _ _ _ => .pure ht

theorem mates_tighter (level : Level) : Mates f g (Same f g) (tighter rules level) (tighter others level) := by
  unfold tighter
  split
  · exact hr.operand _
  · exact hr.unary

theorem mates_operand (level : Level) : Mates f g (Same f g) (operand rules level) (operand others level) :=
  (mates_tighter hr level).bind fun x y hxy => hr.operators level x y hxy

theorem mates_operators (level : Level) {x y : Expr} (hxy : Same f g x y) :
    Mates f g (Same f g) (operators rules level x) (operators others level y) := by
  refine (Mates.acceptAny _).bind fun _ _ ho => ?_
  cases ho with
  | some h => exact (mates_tighter hr level).bind fun _ _ hright => hr.operators level _ _ (.combine level hxy h hright)
  | none => exact Mates.pure hxy

omit hr in
theorem mates_literalValue : Mates f g Eq literalValue literalValue := by
  refine Mates.advance.bind fun a b h => ?_
  rw [h.kind]
  split
  · exact Mates.pure rfl
  · exact Mates.pure rfl
  · exact Mates.pure rfl
  · exact Mates.pure rfl
  · exact Mates.pure rfl
  · exact Mates.failAt h _

omit hr in
theorem mates_item : Mates f g Eq item item := by
  refine (Mates.look fun c d h => by
    rw [h.check fun _ _ hab => hab.is .minus, h.checkSecond fun _ _ hab => by rw [isNumber, isNumber, hab.kind]]).bind
    fun x y hxy => ?_
  subst hxy
  cases x with
  | true => exact Mates.advance.discard.bind fun _ _ _ => mates_literalValue.map fun _ _ h => congrArg negated h
  | false => exact mates_literalValue

theorem mates_items : Mates f g Eq (items rules) (items others) := by
  refine mates_item.bind fun _ _ hfirst => (Mates.accept _).bind fun x y hxy => ?_
  cases hxy with
  | some _ => exact hr.items.bind fun _ _ hrest => .pure (hfirst ▸ hrest ▸ rfl)
  | none => exact Mates.pure (hfirst ▸ rfl)

theorem mates_arrayLiteral {a b : Token} (h : Token.Alike f g a b) :
    Mates f g (Same f g) (arrayLiteral rules a) (arrayLiteral others b) := by
  refine (Mates.ahead _).bind fun x y hxy => ?_
  have finish : ∀ values values' : List Literal, values = values' → Mates f g (Same f g) (do
      discard (Production.expect .rightBracket .arrayEnd)
      return Expr.array a values) (do
      discard (Production.expect .rightBracket .arrayEnd)
      return Expr.array b values') := fun _ _ hv =>
    (Mates.expect _ _).discard.bind fun _ _ _ => .pure (by rw [Same, Expr.relabel, Expr.relabel, h, hv])
  subst hxy
  cases x with
  | true => exact (Mates.pure rfl).bind finish
  | false => exact hr.items.bind finish

omit hr in
theorem mates_increment (hf : f.Counts) (hg : g.Counts) {a b : Token} (h : Token.Alike f g a b) :
    Mates f g (Same f g) (increment a) (increment b) :=
  Mates.advance.bind fun _ _ ho => Mates.advance.discard.bind fun _ _ _ => (Mates.fresh hf hg).bind fun _ _ hread =>
    (Mates.fresh hf hg).bind fun _ _ hid =>
      Mates.pure (by simp only [Same, Expr.relabel, h, ho, hread, hid])

theorem mates_named (hf : f.Counts) (hg : g.Counts) {a b : Token} (h : Token.Alike f g a b) :
    Mates f g (Same f g) (named rules a) (named others b) := by
  refine (Mates.look fun c d hc => hc.incrementAhead).bind fun x y hxy => ?_
  subst hxy
  cases x with
  | true => exact mates_increment hf hg h
  | false =>
    refine (Mates.accept _).bind fun x y hxy => ?_
    cases hxy with
    | some _ =>
      exact hr.expression.bind fun _ _ hx => (Mates.expect _ _).discard.bind fun _ _ _ =>
        (Mates.fresh hf hg).bind fun _ _ hid => .pure (by rw [Same, Expr.relabel, Expr.relabel, hid, h, hx])
    | none =>
      exact (Mates.fresh hf hg).bind fun _ _ hid => .pure (by rw [Same, Expr.relabel, Expr.relabel, hid, h])

theorem mates_primary (hf : f.Counts) (hg : g.Counts) : Mates f g (Same f g) (primary rules) (primary others) := by
  refine (Mates.accept _).bind fun x y hxy => ?_
  cases hxy with
  | some h => exact mates_arrayLiteral hr h
  | none =>
  refine (Mates.look fun c d h => h.check fun _ _ hab => by rw [isLiteral, isLiteral, hab.kind]).bind
    fun x y hxy => ?_
  subst hxy
  cases x with
  | true => exact mates_literalValue.map fun _ _ h => congrArg Expr.literal h
  | false =>
  refine (Mates.accept _).bind fun x y hxy => ?_
  cases hxy with
  | some h =>
    exact (Mates.fresh hf hg).bind fun _ _ hid => .pure (by rw [Same, Expr.relabel, Expr.relabel, hid, h])
  | none =>
  refine (Mates.accept _).bind fun x y hxy => ?_
  cases hxy with
  | some _ => exact (Mates.expectName _).bind fun _ _ h => .pure (by rw [Same, Expr.relabel, Expr.relabel, h])
  | none =>
  refine (Mates.acceptIf fun _ _ h => h.isIdentifier).bind fun x y hxy => ?_
  cases hxy with
  | some h => exact mates_named hr hf hg h
  | none =>
  refine (Mates.accept _).bind fun x y hxy => ?_
  cases hxy with
  | some _ =>
    exact hr.expression.bind fun _ _ hx => (Mates.expect _ _).discard.bind fun _ _ _ =>
      Mates.pure (by rw [Same, Expr.relabel, Expr.relabel, hx])
  | none => exact Mates.fail _

theorem mates_unary (hf : f.Counts) (hg : g.Counts) : Mates f g (Same f g) (unary rules) (unary others) := by
  refine (Mates.acceptAny _).bind fun x y hxy => ?_
  cases hxy with
  | some h => exact hr.unary.bind fun _ _ hx => .pure (by rw [Same, Expr.relabel, Expr.relabel, h, hx])
  | none => exact (mates_primary hr hf hg).bind fun x y hxy => hr.suffixes x y hxy

theorem mates_arguments (count : Nat) :
    Mates f g (SameValues f g) (arguments rules count) (arguments others count) := by
  unfold arguments
  split
  · exact Mates.fail _
  · refine hr.expression.bind fun _ _ hfirst => (Mates.accept _).bind fun x y hxy => ?_
    cases hxy with
    | some _ => exact (hr.arguments (count + 1)).bind fun _ _ hrest => .pure (hrest.cons hfirst)
    | none => exact Mates.pure (SameValues.cons hfirst rfl)

theorem mates_suffixes {x y : Expr} (hxy : Same f g x y) :
    Mates f g (Same f g) (suffixes rules x) (suffixes others y) := by
  refine (Mates.accept _).bind fun _ _ ho => ?_
  cases ho with
  | some _ =>
    refine (Mates.ahead _).bind fun empty empty' hempty => ?_
    have finish : ∀ xs ys : List Expr, SameValues f g xs ys → Mates f g (Same f g) (do
        let paren ← Production.expect .rightParen .argumentsEnd
        rules (.suffixes (.call x paren xs))) (do
        let paren ← Production.expect .rightParen .argumentsEnd
        others (.suffixes (.call y paren ys))) := fun _ _ hxs =>
      (Mates.expect _ _).bind fun _ _ hparen =>
        hr.suffixes _ _ (by rw [Same, Expr.relabel, Expr.relabel, hxy, hparen, hxs])
    subst hempty
    cases empty with
    | true => exact (Mates.pure (V := SameValues f g) rfl).bind finish
    | false => exact (hr.arguments 0).bind finish
  | none =>
    refine (Mates.accept _).bind fun _ _ ho => ?_
    cases ho with
    | some _ =>
      exact (Mates.expectName _).bind fun _ _ hname =>
        hr.suffixes _ _ (by rw [Same, Expr.relabel, Expr.relabel, hxy, hname])
    | none => exact Mates.pure hxy

theorem mate_rulesOver (hf : f.Counts) (hg : g.Counts) : Rules.Mate f g (rulesOver rules) (rulesOver others) where
  program := mates_program hr
  body := mates_body hr
  declaration := mates_declaration hr hf hg
  statement := mates_statement hr
  methods := mates_methods hr
  parameters := mates_parameters hr
  expression := mates_expression hr
  furtherValues := mates_furtherValues hr
  assignment := mates_assignment hr hf hg
  operand := mates_operand hr
  operators level _ _ := mates_operators hr level
  unary := mates_unary hr hf hg
  suffixes _ _ := mates_suffixes hr
  arguments := mates_arguments hr
  items := mates_items hr

end Productions

/-! ### Whole programs -/

theorem mate_produce (hf : f.Counts) (hg : g.Counts) : ∀ depth, Rules.Mate f g (produce depth) (produce depth) := by
  intro depth
  induction depth with
  | zero =>
    have none {α β : Type} {V : α → β → Prop} : Mates f g V Production.exhausted Production.exhausted :=
      fun _ _ _ => trivial
    exact ⟨none, none, none, none, none, fun _ => none, none, none, none, fun _ => none, fun _ _ _ _ => none, none,
      fun _ _ _ => none, fun _ => none, none⟩
  | succ depth ih => exact mate_rulesOver ih hf hg

theorem SameLayout.length_eq {as : List Token} : ∀ {bs : List Token}, SameLayout f g as bs → as.length = bs.length := by
  induction as with
  | nil =>
    intro bs h
    cases bs with
    | nil => rfl
    | cons b bs => exact h.elim
  | cons a as ih =>
    intro bs h
    cases bs with
    | nil => exact h.elim
    | cons b bs => rw [List.length_cons, List.length_cons, ih h.2.2]

/-- Two readings that come to the same: the same trees up to labels, and the same errors up to lines. -/
structure Reading.Twin (f g : Relabeling) (r r' : Reading) : Prop where
  statements : SameBody f g r.statements r'.statements
  errors : r.errors.map (·.relabel f) = r'.errors.map (·.relabel g)
  nextId : f.node r.nextId = g.node r'.nextId

/-- Programs with the same layout are read alike. -/
theorem parse_twin (hf : f.Counts) (hg : g.Counts) {n m : Nat} {ts us : List Token}
    (h : (Cursor.start n ts).Twin f g (Cursor.start m us)) : (parse n ts).Twin f g (parse m us) := by
  have hp := (mate_produce hf hg (nestingBound (Cursor.start n ts).ahead.length)).program _ _ h
  unfold parse
  dsimp only
  rw [h.ahead.length_eq] at hp ⊢
  cases hc : produce (nestingBound (Cursor.start m us).ahead.length) .program (Cursor.start n ts) <;>
    cases hd : produce (nestingBound (Cursor.start m us).ahead.length) .program (Cursor.start m us) <;>
    rw [hc, hd] at hp
  case ok.ok => exact ⟨hp.1, hp.2.errors, hp.2.nextId⟩
  case failed.failed =>
    refine ⟨rfl, ?_, hp.2.nextId⟩
    rw [List.map_append, List.map_append, hp.2.errors, List.map_singleton, List.map_singleton, hp.1]
  case exhausted.exhausted => exact ⟨rfl, rfl, h.nextId⟩
  all_goals exact hp.elim

/-- An end is no sign, so what is cut off at it does not matter to the gap. -/
theorem gapless_takeWhile (a : Token) (as : List Token) :
    gapless (a :: as.takeWhile (!·.isFinish)) = gapless (a :: as) := by
  cases as with
  | nil => rfl
  | cons b as =>
    cases hb : b.isFinish with
    | true =>
      have hkind : b.kind = .finish := by simpa [Token.isFinish] using hb
      simp [hb, gapless, Token.is, hkind]
    | false => simp [hb, gapless]

/-- Lists of tokens with the same layout are entered at positions with the same layout, if they have an end or the one
that is missing keeps its label. -/
theorem Cursor.Twin.start {n m : Nat} (hid : f.node n = g.node m) {as bs : List Token} (h : SameLayout f g as bs)
    (hend : (∃ t ∈ as, t.isFinish) ∨ Token.Alike f g .missing .missing) :
    (Cursor.start n as).Twin f g (Cursor.start m bs) := by
  have hcut : SameLayout f g (as.takeWhile (!·.isFinish)) (bs.takeWhile (!·.isFinish)) ∧
      Token.Alike f g ((as.find? Token.isFinish).getD .missing) ((bs.find? Token.isFinish).getD .missing) := by
    induction as generalizing bs with
    | nil =>
      cases bs with
      | nil => exact ⟨trivial, hend.resolve_left (by simp)⟩
      | cons b bs => exact h.elim
    | cons a as ih =>
      cases bs with
      | nil => exact h.elim
      | cons b bs =>
        obtain ⟨hab, hgap, hrest⟩ := h
        have hfinish : a.isFinish = b.isFinish := by rw [Token.isFinish, Token.isFinish, hab.kind]
        cases ha : a.isFinish with
        | true =>
          rw [ha] at hfinish
          simp only [List.takeWhile_cons, List.find?_cons, ha, ← hfinish]
          exact ⟨trivial, hab⟩
        | false =>
          rw [ha] at hfinish
          have hend : (∃ t ∈ as, t.isFinish) ∨ Token.Alike f g .missing .missing := hend.imp_left (by simp [ha])
          simp only [List.takeWhile_cons, List.find?_cons, ha, ← hfinish]
          refine ⟨⟨hab, ?_, (ih hrest hend).1⟩, (ih hrest hend).2⟩
          rw [gapless_takeWhile, gapless_takeWhile, hgap]
  exact ⟨hcut.1, hcut.2, hcut.2, hid, rfl⟩

/-! ### Programs that are moved -/

theorem SameLayout.shift (nodes lines bytes : Nat) : ∀ ts : List Token,
    SameLayout (.shift nodes lines bytes) .same ts (ts.map (·.relabel (.shift nodes lines bytes)))
  | [] => trivial
  | a :: ts => by
    refine ⟨rfl, ?_, SameLayout.shift nodes lines bytes ts⟩
    cases ts with
    | nil => rfl
    | cons b ts =>
      have hoffset : (b.offset + bytes == a.offset + bytes + 1) = (b.offset == a.offset + 1) := by
        rw [Bool.eq_iff_iff, beq_iff_eq, beq_iff_eq]
        omega
      exact congrArg (((a.is .plus && b.is .plus) || (a.is .minus && b.is .minus)) && ·) hoffset.symm

/-- The reading with new labels. -/
def Reading.relabel (f : Relabeling) (r : Reading) : Reading :=
  ⟨Stmt.relabelAll f r.statements, r.errors.map (·.relabel f), f.node r.nextId⟩

/-- A program that is moved is read as before, at its new place and from a later identity on. -/
theorem parse_shift (n nodes lines bytes : Nat) {ts : List Token} (hend : ∃ t ∈ ts, t.isFinish) :
    parse (n + nodes) (ts.map (·.relabel (.shift nodes lines bytes)))
      = (parse n ts).relabel (.shift nodes lines bytes) := by
  have hcounts : (Relabeling.shift nodes lines bytes).Counts := fun i => Nat.add_right_comm i 1 nodes
  have hlayout := SameLayout.shift nodes lines bytes ts
  obtain ⟨hstatements, herrors, hnext⟩ :=
    parse_twin (g := .same) hcounts (fun _ => rfl) (Cursor.Twin.start (n := n) (m := n + nodes) rfl hlayout (.inl hend))
  rw [SameBody, Stmt.relabelAll_same] at hstatements
  rw [show (fun e : ParseError => e.relabel .same) = id from rfl, List.map_id] at herrors
  rw [Reading.relabel, hstatements, herrors, hnext]
  rfl

end Grammar

end Treewalk
