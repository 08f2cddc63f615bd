import Treewalk.Proofs.Grammar.Motion

/-!
What a production does. From a position on it reads tokens, takes identities, notes errors and asks the productions of
the phrases within, until it is done or fails; it fails where a phrase within fails. The tokens that it has in hand, read
and not yet given for an error, are counted: an error that does not end the production costs one, and declarations are
asked for with one in hand only. What holds along each of these steps holds of every production.
-/

namespace Treewalk.Grammar

/-- What follows an outcome, unless it is a failure. -/
def Parsed.andThen {α β : Type} (r : Parsed α) (next : α → Cursor → Parsed β) : Parsed β :=
  match r with
  | .ok a d => next a d
  | .failed e d => .failed e d
  | .exhausted => .exhausted

namespace Parsed

variable {α β γ : Type}

theorem andThen_assoc (r : Parsed α) (f : α → Cursor → Parsed β) (g : β → Cursor → Parsed γ) :
    (r.andThen f).andThen g = r.andThen fun a d => (f a d).andThen g := by
  cases r <;> rfl

theorem andThen_pure (r : Parsed α) : r.andThen ok = r := by
  cases r <;> rfl

/-- The outcome is decided, at the position `d`. -/
def Ends (r : Parsed α) (d : Cursor) : Prop :=
  (∃ a, r = ok a d) ∨ ∃ e, r = failed e d

theorem Ends.ok {a : α} {d : Cursor} : (ok a d).Ends d := Or.inl ⟨a, rfl⟩

theorem Ends.failed {e : ParseError} {d : Cursor} : (failed e d : Parsed α).Ends d := Or.inr ⟨e, rfl⟩

theorem Ends.eq_of_ok {a : α} {c d : Cursor} (h : (Parsed.ok a c).Ends d) : c = d := by
  rcases h with ⟨b, h⟩ | ⟨e, h⟩ <;> cases h
  rfl

theorem Ends.eq_of_failed {e : ParseError} {c d : Cursor} (h : (Parsed.failed e c : Parsed α).Ends d) : c = d := by
  rcases h with ⟨b, h⟩ | ⟨e, h⟩ <;> cases h
  rfl

theorem Ends.andThen {r : Parsed α} {next : α → Cursor → Parsed β} {e : Cursor} (h : (r.andThen next).Ends e) :
    (∃ a d, r = .ok a d ∧ (next a d).Ends e) ∨ ∃ error, r = .failed error e := by
  cases r with
  | ok a d => exact Or.inl ⟨a, d, rfl, h⟩
  | failed error d => exact Or.inr ⟨error, h.eq_of_failed ▸ rfl⟩
  | exhausted => rcases h with ⟨b, h⟩ | ⟨error, h⟩ <;> cases h

theorem Ends.ne_exhausted {r : Parsed α} {d : Cursor} (h : r.Ends d) : r ≠ exhausted := by
  rcases h with ⟨a, rfl⟩ | ⟨e, rfl⟩ <;> nofun

theorem exists_ends {r : Parsed α} (h : r ≠ exhausted) : ∃ d, r.Ends d := by
  cases r with
  | ok a d => exact ⟨d, .ok⟩
  | failed e d => exact ⟨d, .failed⟩
  | exhausted => exact absurd rfl h

end Parsed

/-- The number of tokens that the phrase takes at least. -/
def Phrase.least : Phrase → Nat
  | .statement => 1
  | .expression => 1
  | .assignment => 1
  | .operand _ => 1
  | .unary => 1
  | _ => 0

/-- The number of tokens in hand that the phrase is asked for with: declarations may cost one of them, if one of those
that are given up has no other token of its own. -/
def Phrase.loan : Phrase → Nat
  | .program => 1
  | .body => 1
  | .declaration => 1
  | _ => 0

/-- The phrase may be asked for with that many tokens in hand; a declaration, before the end only. -/
def Phrase.Affordable (held : Nat) (c : Cursor) (phrase : Phrase) : Prop :=
  phrase.loan ≤ held ∧ (phrase = .declaration → c.ahead ≠ [])

/-- An elementary step: a token is read and is in hand then, an identity is taken, or an error is noted at the cost of a
token, with another one left. -/
inductive Move : Nat → Cursor → Nat → Cursor → Prop where
  | pass {held c t rest} (h : c.ahead = t :: rest) : Move held c (held + 1) (c.pass t rest)
  | fresh {held c} : Move held c held { c with nextId := c.nextId + 1 }
  | report {held c} (e : ParseError) : Move (held + 2) c (held + 1) (c.report e)

theorem Move.respected {Q : Cursor → Cursor → Prop} [Respected Q] {held more : Nat} {c d : Cursor}
    (h : Move held c more d) : Q c d := by
  cases h with
  | pass h => exact Respected.pass h
  | fresh => exact Respected.fresh c
  | report e => exact Respected.report c e

/-- With more tokens in hand the same step can be taken. -/
theorem Move.add {held more : Nat} {c d : Cursor} (h : Move held c more d) (n : Nat) :
    Move (held + n) c (more + n) d := by
  cases h with
  | @pass held c t rest h => exact Nat.add_right_comm held 1 n ▸ .pass h
  | fresh => exact .fresh
  | @report held c e => exact Nat.add_right_comm held 1 n ▸ Nat.add_right_comm held 2 n ▸ .report e

/-- What is done from a position on with a number of tokens in hand, given the productions of the phrases within. Where
it succeeds, at least `least` tokens are in hand. -/
inductive Descent {α : Type} (least : Nat) : Nat → Cursor → (Rules → Parsed α) → Prop where
  | done {held c} (a : α) (h : least ≤ held) : Descent least held c fun _ => .ok a c
  | fail {held c} (e : ParseError) : Descent least held c fun _ => .failed e c
  | move {held c more d run} (h : Move held c more d) (next : Descent least more d run) : Descent least held c run
  | ask {held c} {phrase : Phrase} {rest : phrase.Tree → Cursor → Rules → Parsed α} (h : phrase.Affordable held c)
      (next : ∀ a d, Descent least (held + phrase.least) d (rest a d)) :
      Descent least held c fun rules => (rules phrase c).andThen fun a d => rest a d rules

namespace Descent

variable {α β : Type} {least more held : Nat} {c : Cursor} {run : Rules → Parsed α}

theorem pass {t : Token} {rest : List Token} (h : c.ahead = t :: rest)
    (next : Descent least (held + 1) (c.pass t rest) run) : Descent least held c run :=
  .move (.pass h) next

/-- With more tokens in hand the same can be done. -/
theorem add (h : Descent least held c run) (n : Nat) : Descent least (held + n) c run := by
  induction h with
  | done a h => exact .done a (Nat.le_add_right_of_le h)
  | fail e => exact .fail e
  | move h _ ih => exact .move (h.add n) ih
  | @ask held c phrase rest h _ ih =>
    refine .ask ⟨Nat.le_add_right_of_le h.1, h.2⟩ fun a d => ?_
    rw [Nat.add_right_comm]
    exact ih a d

theorem mono (h : Descent least held c run) (hle : held ≤ more) : Descent least more c run :=
  Nat.add_sub_cancel' hle ▸ h.add (more - held)

/-- What comes behind is done with the tokens that are in hand then. -/
theorem andThen {rest : α → Cursor → Rules → Parsed β} (h : Descent least held c run)
    (hrest : ∀ a d, Descent more least d (rest a d)) :
    Descent more held c fun rules => (run rules).andThen fun a d => rest a d rules := by
  induction h with
  | done a h => exact (hrest a _).mono h
  | fail e => exact .fail e
  | move h _ ih => exact .move h ih
  | ask h _ ih =>
    simp only [Parsed.andThen_assoc]
    exact .ask h ih

theorem lower (h : Descent least held c run) (hle : more ≤ least) : Descent more held c run := by
  simpa only [Parsed.andThen_pure] using h.andThen fun a _ => .done a hle

/-- What the elementary steps and the phrases within respect holds all the way. -/
theorem keeps {Q : Cursor → Cursor → Prop} [Respected Q] {rules : Rules} (hr : ∀ phrase, Keeps Q (rules phrase))
    (h : Descent least held c run) : ∀ {e}, (run rules).Ends e → Q c e := by
  induction h with
  | done a h => exact fun he => he.eq_of_ok ▸ Respected.refl _
  | fail e => exact fun he => he.eq_of_failed ▸ Respected.refl _
  | move h _ ih => exact fun he => Respected.trans h.respected (ih he)
  | @ask held c phrase rest h _ ih =>
    intro e he
    rcases he.andThen with ⟨a, d, hq, he⟩ | ⟨error, hq⟩
    · exact Respected.trans ((hr phrase c d).1 a hq) (ih a d he)
    · exact (hr phrase c e).2 error hq

end Descent

/-- The production, given those of the phrases within, is a descent from each position. -/
def Descends {α : Type} (held least : Nat) (p : Rules → Production α) : Prop :=
  ∀ c, Descent least held c fun rules => p rules c

namespace Descends

variable {α β : Type} {held least more : Nat}

theorem bind {p : Rules → Production α} {f : α → Rules → Production β} (hp : Descends held least p)
    (hf : ∀ a, Descends least more (f a)) : Descends held more fun rules => p rules >>= fun a => f a rules :=
  fun c => (hp c).andThen fun a d => hf a d

theorem pure (a : α) (h : least ≤ held) : Descends held least fun _ => (Pure.pure a : Production α) :=
  fun _ => .done a h

theorem map {p : Rules → Production α} {f : α → β} (hp : Descends held least p) :
    Descends held least fun rules => f <$> p rules :=
  hp.bind fun _ => pure _ (Nat.le_refl _)

theorem weaken {p : Rules → Production α} {start finish : Nat} (hp : Descends held least p) (hs : held ≤ start)
    (hf : finish ≤ least) : Descends start finish p :=
  fun c => ((hp c).mono hs).lower hf

theorem keeps {Q : Cursor → Cursor → Prop} [Respected Q] {p : Rules → Production α} {rules : Rules}
    (hp : Descends held least p) (hr : ∀ phrase, Keeps Q (rules phrase)) : Keeps Q (p rules) :=
  fun c _ => ⟨fun a h => (hp c).keeps hr (Or.inl ⟨a, h⟩), fun e h => (hp c).keeps hr (Or.inr ⟨e, h⟩)⟩

theorem discard {p : Rules → Production α} (hp : Descends held least p) :
    Descends held least fun rules => Functor.discard (p rules) :=
  hp.bind fun _ => pure _ (Nat.le_refl _)

theorem fail (fault : ParseFault) : Descends held least fun _ => (Production.fail fault : Production α) :=
  fun _ => .fail _

/-- The rule for a phrase within. -/
theorem ask (phrase : Phrase) (h : phrase.loan ≤ held) (hd : phrase ≠ .declaration) :
    Descends held (held + phrase.least) fun rules => rules phrase := fun c => by
  have asked : Descent (held + phrase.least) held c fun rules => (rules phrase c).andThen .ok :=
    .ask ⟨h, fun e => absurd e hd⟩ fun a _ => .done a (Nat.le_refl _)
  simpa only [Parsed.andThen_pure] using asked

theorem look_bind {f : Cursor → α} {g : α → Rules → Production β} (hg : ∀ a, Descends held least (g a)) :
    Descends held least fun rules => Production.look f >>= fun a => g a rules :=
  fun c => hg (f c) c

theorem look_bind_of_true {f : Cursor → Bool} {g : Bool → Rules → Production β}
    (htrue : ∀ c, f c = true → Descent least held c fun rules => g true rules c)
    (hfalse : Descends held least (g false)) :
    Descends held least fun rules => Production.look f >>= fun x => g x rules := fun c => by
  show Descent least held c fun rules => g (f c) rules c
  cases hx : f c with
  | true => exact htrue c hx
  | false => exact hfalse c

theorem fresh_bind {f : NodeId → Rules → Production β} (hf : ∀ i, Descends held least (f i)) :
    Descends held least fun rules => Production.fresh >>= fun i => f i rules :=
  fun c => .move .fresh (hf c.nextId _)

theorem report_bind {t : Token} {fault : ParseFault} {f : Unit → Rules → Production β}
    (hf : Descends (held + 1) least (f ())) :
    Descends (held + 2) least fun rules => Production.report t fault >>= fun u => f u rules :=
  fun _ => .move (.report _) (hf _)

/-- Nothing is read at the end, so that nothing more may be in hand. -/
theorem advance : Descends held held fun _ => Production.advance := fun c => by
  show Descent held held c fun _ => .ok c.advance.last c.advance
  cases h : c.ahead with
  | nil =>
    rw [Cursor.advance_of_atEnd h]
    exact .done _ (Nat.le_refl _)
  | cons t rest =>
    rw [Cursor.advance_of_ahead h]
    exact .pass h (.done _ (Nat.le_succ _))

theorem acceptIf_bind {p : Token → Bool} {f : Option Token → Rules → Production β}
    (hsome : ∀ t, Descends (held + 1) least (f (some t))) (hnone : Descends held least (f none)) :
    Descends held least fun rules => Production.acceptIf p >>= fun x => f x rules := fun c => by
  show Descent least held c fun rules => (Production.acceptIf p c).andThen fun x d => f x rules d
  unfold Production.acceptIf
  cases hc : c.check p with
  | true =>
    obtain ⟨t, rest, ha, -⟩ := Cursor.check_eq_true.mp hc
    rw [Cursor.advance_of_ahead ha]
    exact .pass ha (hsome t (c.pass t rest))
  | false => exact hnone c

theorem expectIf {p : Token → Bool} {what : Expected} :
    Descends held (held + 1) fun _ => Production.expectIf p what := fun c => by
  show Descent (held + 1) held c fun _ => Production.expectIf p what c
  unfold Production.expectIf
  cases hc : c.check p with
  | true =>
    obtain ⟨t, rest, ha, -⟩ := Cursor.check_eq_true.mp hc
    rw [Cursor.advance_of_ahead ha]
    exact .pass ha (.done t (Nat.le_refl _))
  | false => exact .fail _

theorem expect {s : Symbol} {what : Expected} :
    Descends held (held + 1) fun _ => Functor.discard (Production.expect s what) :=
  expectIf.discard

end Descends

/-! ### Blocks, parameters and routines -/

variable {held : Nat}

theorem descends_block : Descends (held + 1) (held + 2) block :=
  (Descends.ask .body (Nat.succ_pos held) nofun).bind fun _ => Descends.expect.bind fun _ => .pure _ (Nat.le_refl _)

theorem descends_parameterList : Descends held (held + 1) parameterList := by
  refine Descends.look_bind fun x => ?_
  have finish : ∀ params : List Token, Descends held (held + 1) fun _ => (do
      discard (Production.expect .rightParen .parametersEnd)
      return params) := fun _ => Descends.expect.bind fun _ => .pure _ (Nat.le_refl _)
  cases x with
  | true => exact finish []
  | false => exact (Descends.ask (.parameters 0) (Nat.zero_le _) nofun).bind finish

theorem descends_parameters (count : Nat) : Descends 0 0 fun rules => parameters rules count := by
  unfold parameters
  split
  · exact Descends.fail _
  · exact Descends.expectIf.bind fun name => Descends.acceptIf_bind
      (fun _ => (Descends.ask (.parameters (count + 1)) (Nat.zero_le _) nofun).bind fun _ => .pure _ (Nat.zero_le _))
      (.pure _ (Nat.zero_le _))

theorem descends_routine (kind : RoutineKind) : Descends held (held + 1) fun rules => routine rules kind := by
  refine Descends.expectIf.bind fun name => Descends.look_bind fun bare => ?_
  have finish : ∀ params : List Token, Descends (held + 1) (held + 1) fun rules => (do
      discard (Production.expect .leftBrace (.routineBody kind))
      let body ← block rules
      return (⟨name, params, body⟩ : Routine)) := fun _ =>
    Descends.expect.bind fun _ => descends_block.bind fun _ => .pure _ (by omega)
  dsimp only
  split
  · exact finish []
  · exact Descends.expect.bind fun _ => descends_parameterList.bind fun params c => (finish params c).mono (by omega)

/-! ### Expressions -/

theorem descends_furtherValues : Descends 0 0 furtherValues :=
  Descends.acceptIf_bind
    (fun _ => (Descends.ask .expression (Nat.zero_le _) nofun).bind fun _ =>
      (Descends.ask .furtherValues (Nat.zero_le _) nofun).bind fun _ => .pure _ (Nat.zero_le _))
    (.pure _ (Nat.zero_le _))

theorem descends_lambda (keyword : Token) : Descends held (held + 1) fun rules => lambda rules keyword :=
  Descends.expect.bind fun _ => descends_parameterList.bind fun _ => Descends.expect.bind fun _ =>
    descends_block.bind fun _ => .pure _ (by omega)

theorem descends_expression : Descends 0 1 expression := by
  refine Descends.acceptIf_bind (fun keyword c => (descends_lambda keyword c).mono (Nat.zero_le _)) ?_
  refine (Descends.ask .assignment (Nat.zero_le _) nofun).bind fun _ =>
    Descends.acceptIf_bind (fun question => ?_) (.pure _ (by decide))
  exact (Descends.ask (.operand .equality) (Nat.zero_le _) nofun).bind fun _ => Descends.expect.bind fun _ =>
    (Descends.ask (.operand .equality) (Nat.zero_le _) nofun).bind fun _ => .pure _ (by decide)

/-- An error about the target is affordable: the target and the sign behind it have been read. -/
theorem descends_assignment : Descends 0 1 assignment := by
  refine (Descends.ask (.operand .or) (Nat.zero_le _) nofun).bind fun target =>
    Descends.acceptIf_bind (fun equals => ?_) (.pure _ (by decide))
  refine (Descends.ask .assignment (Nat.zero_le _) nofun).bind fun value => ?_
  cases target with
  | var id name => exact Descends.fresh_bind fun _ => .pure _ (by decide)
  | get object name => exact .pure _ (by decide)
  | _ => exact Descends.report_bind (.pure _ (by decide))

theorem descends_tighter (level : Level) : Descends held (held + 1) fun rules => tighter rules level := by
  unfold tighter
  split
  · exact Descends.ask (.operand _) (Nat.zero_le _) nofun
  · exact Descends.ask .unary (Nat.zero_le _) nofun

theorem descends_operand (level : Level) : Descends 0 1 fun rules => operand rules level :=
  (descends_tighter level).bind fun left => Descends.ask (.operators level left) (Nat.zero_le _) nofun

theorem descends_operators (level : Level) (left : Expr) : Descends 0 0 fun rules => operators rules level left :=
  Descends.acceptIf_bind
    (fun operator => (descends_tighter level).bind fun right c =>
      (Descends.ask (.operators level (level.combine left operator right)) (Nat.zero_le _) nofun c).mono (Nat.zero_le _))
    (.pure _ (Nat.le_refl _))

theorem descends_literalValue : Descends held held fun _ => literalValue := by
  refine Descends.advance.bind fun token => ?_
  split
  · exact .pure _ (Nat.le_refl _)
  · exact .pure _ (Nat.le_refl _)
  · exact .pure _ (Nat.le_refl _)
  · exact .pure _ (Nat.le_refl _)
  · exact .pure _ (Nat.le_refl _)
  · exact fun _ => .fail _

theorem descends_item : Descends held held fun _ => item := by
  refine Descends.look_bind fun x => ?_
  split
  · exact Descends.advance.discard.bind fun _ => descends_literalValue.map
  · exact descends_literalValue

theorem descends_items : Descends 0 0 items :=
  descends_item.bind fun _ => Descends.acceptIf_bind
    (fun _ => (Descends.ask .items (Nat.zero_le _) nofun).bind fun _ => .pure _ (Nat.zero_le _)) (.pure _ (Nat.le_refl _))

theorem descends_arrayLiteral (bracket : Token) : Descends held (held + 1) fun rules => arrayLiteral rules bracket := by
  refine Descends.look_bind fun x => ?_
  have finish : ∀ values : List Literal, Descends held (held + 1) fun _ => (do
      discard (Production.expect .rightBracket .arrayEnd)
      return Expr.array bracket values) := fun _ => Descends.expect.bind fun _ => .pure _ (Nat.le_refl _)
  cases x with
  | true => exact finish []
  | false => exact (Descends.ask .items (Nat.zero_le _) nofun).bind finish

theorem descends_named (name : Token) : Descends held held fun rules => named rules name := by
  refine Descends.look_bind fun x => ?_
  split
  · exact Descends.advance.bind fun _ => Descends.advance.discard.bind fun _ => Descends.fresh_bind fun _ =>
      Descends.fresh_bind fun _ => .pure _ (Nat.le_refl _)
  · refine Descends.acceptIf_bind (fun _ => ?_) (Descends.fresh_bind fun _ => .pure _ (Nat.le_refl _))
    exact (Descends.ask .expression (Nat.zero_le _) nofun).bind fun _ => Descends.expect.bind fun _ =>
      Descends.fresh_bind fun _ => .pure _ (by omega)

/-- A constant that is ahead is read. -/
theorem descent_literalValue {c : Cursor} (h : c.check isLiteral) : Descent (held + 1) held c fun _ => literalValue c := by
  obtain ⟨t, rest, ha, -⟩ := Cursor.check_eq_true.mp h
  rw [literalValue_apply, Cursor.advance_of_ahead ha]
  split
  · exact .pass ha (.done _ (Nat.le_refl _))
  · exact .pass ha (.fail _)

theorem descends_primary : Descends 0 1 primary := by
  refine Descends.acceptIf_bind (fun bracket c => (descends_arrayLiteral bracket c).mono (Nat.zero_le _)) ?_
  refine Descends.look_bind_of_true (fun c hl => (descent_literalValue hl).andThen fun _ _ => .done _ (Nat.le_refl _)) ?_
  refine Descends.acceptIf_bind (fun _ => Descends.fresh_bind fun _ => .pure _ (Nat.le_refl _)) ?_
  refine Descends.acceptIf_bind (fun _ => Descends.expectIf.bind fun _ => .pure _ (by decide)) ?_
  refine Descends.acceptIf_bind (fun name => descends_named name) ?_
  refine Descends.acceptIf_bind (fun _ => ?_) (.fail _)
  exact (Descends.ask .expression (Nat.zero_le _) nofun).bind fun _ => Descends.expect.bind fun _ => .pure _ (by decide)

theorem descends_unary : Descends 0 1 unary :=
  Descends.acceptIf_bind (fun _ => (Descends.ask .unary (Nat.zero_le _) nofun).bind fun _ => .pure _ (by decide))
    (descends_primary.bind fun inner => Descends.ask (.suffixes inner) (Nat.zero_le _) nofun)

theorem descends_arguments (count : Nat) : Descends 0 0 fun rules => arguments rules count := by
  unfold arguments
  split
  · exact Descends.fail _
  · exact (Descends.ask .expression (Nat.zero_le _) nofun).bind fun _ => Descends.acceptIf_bind
      (fun _ => (Descends.ask (.arguments (count + 1)) (Nat.zero_le _) nofun).bind fun _ => .pure _ (Nat.zero_le _))
      (.pure _ (Nat.zero_le _))

theorem descends_suffixes (inner : Expr) : Descends 0 0 fun rules => suffixes rules inner := by
  have further : ∀ (held : Nat) (e : Expr), Descends held 0 fun rules => rules (.suffixes e) := fun _ e c =>
    (Descends.ask (.suffixes e) (Nat.zero_le _) nofun c).mono (Nat.zero_le _)
  refine Descends.acceptIf_bind (fun _ => Descends.look_bind fun y => ?_) ?_
  · have finish : ∀ arguments : List Expr, Descends 1 0 fun rules => (do
        let paren ← Production.expect .rightParen .argumentsEnd
        rules (.suffixes (.call inner paren arguments))) := fun _ => Descends.expectIf.bind fun _ => further 2 _
    cases y with
    | true => exact finish []
    | false => exact (Descends.ask (.arguments 0) (Nat.zero_le _) nofun).bind finish
  · exact Descends.acceptIf_bind (fun _ => Descends.expectIf.bind fun _ => further 2 _) (.pure _ (Nat.le_refl _))

/-! ### Statements -/

theorem descends_varDeclaration : Descends held (held + 1) varDeclaration := by
  have finish : ∀ (more : Nat) (name : Token) (initializer : Option Expr), held ≤ more →
      Descends more (held + 1) fun _ => (do
        discard (Production.expect .semicolon .variableEnd)
        return Stmt.varDecl name initializer) := fun _ _ _ h =>
    Descends.expect.bind fun _ => .pure _ (Nat.succ_le_succ h)
  refine Descends.expectIf.bind fun name => Descends.acceptIf_bind (fun _ => ?_) (finish _ name none (by omega))
  exact (Descends.ask .expression (Nat.zero_le _) nofun).bind fun value => finish _ name (some value) (by omega)

theorem descends_expressionStatement : Descends held (held + 1) expressionStatement :=
  (Descends.ask .expression (Nat.zero_le _) nofun).bind fun _ => Descends.expect.bind fun _ => .pure _ (by omega)

theorem descends_loopInitializer : Descends held held loopInitializer :=
  Descends.acceptIf_bind (fun _ => .pure _ (by omega))
    (Descends.acceptIf_bind (fun _ => descends_varDeclaration.map.weaken (Nat.le_succ _) (Nat.le_succ _))
      (descends_expressionStatement.map.weaken (Nat.le_refl _) (Nat.le_succ _)))

theorem descends_expressionUnless (s : Symbol) : Descends held held fun rules => expressionUnless rules s := by
  refine Descends.look_bind fun x => ?_
  cases x with
  | true => exact .pure _ (Nat.le_refl _)
  | false => exact (Descends.ask .expression (Nat.zero_le _) nofun).bind fun _ => .pure _ (by omega)

theorem descends_forStatement : Descends held held forStatement :=
  Descends.expect.bind fun _ => descends_loopInitializer.bind fun _ => (descends_expressionUnless _).bind fun _ =>
    Descends.expect.bind fun _ => (descends_expressionUnless _).bind fun _ => Descends.expect.bind fun _ =>
      (Descends.ask .statement (Nat.zero_le _) nofun).bind fun _ => .pure _ (by omega)

theorem descends_ifStatement : Descends held held ifStatement :=
  Descends.expect.bind fun _ => (Descends.ask .expression (Nat.zero_le _) nofun).bind fun _ => Descends.expect.bind fun _ =>
    (Descends.ask .statement (Nat.zero_le _) nofun).bind fun _ => Descends.acceptIf_bind
      (fun _ => (Descends.ask .statement (Nat.zero_le _) nofun).bind fun _ => .pure _ (by omega)) (.pure _ (by omega))

theorem descends_whileStatement : Descends held held whileStatement :=
  Descends.expect.bind fun _ => (Descends.ask .expression (Nat.zero_le _) nofun).bind fun _ => Descends.expect.bind fun _ =>
    (Descends.ask .statement (Nat.zero_le _) nofun).bind fun _ => .pure _ (by omega)

theorem descends_returnStatement (keyword : Token) : Descends held held fun rules => returnStatement rules keyword :=
  (descends_expressionUnless _).bind fun _ => Descends.expect.bind fun _ => .pure _ (by omega)

theorem descends_printStatement (keyword : Token) : Descends held held fun rules => printStatement rules keyword :=
  (Descends.ask .expression (Nat.zero_le _) nofun).bind fun _ => (Descends.ask .furtherValues (Nat.zero_le _) nofun).bind fun _ =>
    Descends.expect.bind fun _ => .pure _ (by omega)

theorem descends_statement : Descends 0 1 statement := by
  refine Descends.acceptIf_bind (fun _ => descends_forStatement) ?_
  refine Descends.acceptIf_bind (fun _ => descends_ifStatement) ?_
  refine Descends.acceptIf_bind (fun _ => descends_whileStatement) ?_
  refine Descends.acceptIf_bind (fun _ => Descends.expect.bind fun _ => .pure _ (by decide)) ?_
  refine Descends.acceptIf_bind (fun _ => descends_returnStatement _) ?_
  refine Descends.acceptIf_bind (fun _ => descends_block.bind fun _ => .pure _ (by decide)) ?_
  exact Descends.acceptIf_bind (fun _ => descends_printStatement _) descends_expressionStatement

/-! ### Declarations -/

theorem descends_methods : Descends 0 0 methods := by
  refine Descends.look_bind fun x => ?_
  split
  · exact .pure _ (Nat.le_refl _)
  · exact (descends_routine _).bind fun _ => (Descends.ask .methods (Nat.zero_le _) nofun).bind fun _ =>
      .pure _ (Nat.zero_le _)

theorem descends_classDeclaration : Descends held held classDeclaration := by
  have finish : ∀ (more : Nat) (name : Token) (parent : Option Expr), held ≤ more → Descends more held fun rules => (do
      discard (Production.expect .leftBrace .classBody)
      let methods : List Routine ← rules .methods
      discard (Production.expect .rightBrace .classEnd)
      return Stmt.classDecl name parent methods) := fun _ _ _ h =>
    Descends.expect.bind fun _ => (Descends.ask .methods (Nat.zero_le _) nofun).bind fun _ =>
      Descends.expect.bind fun _ => .pure _ (by omega)
  refine Descends.expectIf.bind fun name => Descends.acceptIf_bind (fun _ => ?_) (finish _ name none (by omega))
  exact Descends.expectIf.bind fun parent => Descends.fresh_bind fun id => finish _ name (some (.var id parent)) (by omega)

theorem descends_useDeclaration (keyword : Token) : Descends held held fun _ => useDeclaration keyword :=
  Descends.expectIf.bind fun _ => Descends.expect.bind fun _ => .pure _ (by omega)

theorem descends_declared : Descends 0 1 declared := by
  refine Descends.acceptIf_bind (fun _ => descends_classDeclaration) ?_
  refine Descends.look_bind fun x => ?_
  split
  · exact Descends.advance.discard.bind fun _ => (descends_routine _).bind fun _ => .pure _ (Nat.le_refl _)
  refine Descends.acceptIf_bind (fun _ => descends_varDeclaration.weaken (Nat.zero_le _) (Nat.le_refl _)) ?_
  exact Descends.acceptIf_bind (fun _ => descends_useDeclaration _) (Descends.ask .statement (Nat.zero_le _) nofun)

/-- A declaration is asked for before the end only. -/
theorem descends_declarations {stop : Cursor → Bool} (hstop : ∀ c, stop c = false → c.ahead ≠ [])
    {rest : Option Stmt → Rules → Production (List Stmt)} (hrest : ∀ first, Descends 1 1 (rest first)) :
    Descends 1 1 fun rules => (do
      if ← Production.look stop then return []
      else
        let first : Option Stmt ← rules .declaration
        rest first rules) := fun c => by
  show Descent 1 1 c fun rules => (if stop c then pure [] else do
    let first : Option Stmt ← rules .declaration
    rest first rules : Production (List Stmt)) c
  cases hc : stop c with
  | true => exact .done _ (Nat.le_refl _)
  | false =>
    have affordable : Phrase.declaration.Affordable 1 c := ⟨Nat.le_refl 1, fun _ => hstop c hc⟩
    exact .ask affordable fun first => hrest first

theorem descends_body : Descends 1 1 body := by
  refine descends_declarations (fun c hc h => ?_) fun _ =>
    (Descends.ask .body (Nat.le_refl 1) nofun).bind fun _ => .pure _ (Nat.le_refl _)
  simp [Cursor.atEnd, h] at hc

theorem descends_program : Descends 1 1 program := by
  refine descends_declarations (fun c hc h => ?_) fun _ =>
    (Descends.ask .program (Nat.le_refl 1) nofun).bind fun _ => .pure _ (Nat.le_refl _)
  simp [Cursor.atEnd, h] at hc

/-- Every production but that of a declaration, which catches failures, is a descent. -/
theorem descends_rulesOver {phrase : Phrase} (h : phrase ≠ .declaration) :
    Descends phrase.loan (phrase.loan + phrase.least) fun rules => rulesOver rules phrase := by
  cases phrase with
  | program => exact descends_program
  | body => exact descends_body
  | declaration => exact absurd rfl h
  | statement => exact descends_statement
  | methods => exact descends_methods
  | parameters count => exact descends_parameters count
  | expression => exact descends_expression
  | furtherValues => exact descends_furtherValues
  | assignment => exact descends_assignment
  | operand level => exact descends_operand level
  | operators level left => exact descends_operators level left
  | unary => exact descends_unary
  | suffixes inner => exact descends_suffixes inner
  | arguments count => exact descends_arguments count
  | items => exact descends_items

/-! ### What every production respects -/

section Respect
variable {Q : Cursor → Cursor → Prop} [Respected Q] {rules : Rules} (hr : ∀ phrase, Keeps Q (rules phrase))
include hr

theorem keeps_declared : Keeps Q (declared rules) := descends_declared.keeps hr

/-- Where a declaration is given up, an error is noted and tokens are skipped. -/
theorem keeps_declaration : Keeps Q (declaration rules) := fun c d => by
  constructor
  · intro s hs
    unfold declaration at hs
    split at hs
    · next h =>
      cases hs
      exact (keeps_declared hr c d).1 _ h
    · next h =>
      cases hs
      exact Respected.trans ((keeps_declared hr c _).2 _ h)
        (Respected.trans (Respected.report _ _) (Respected.resume _))
    · cases hs
  · intro e hs
    unfold declaration at hs
    split at hs <;> cases hs

theorem keeps_rulesOver (phrase : Phrase) : Keeps Q (rulesOver rules phrase) := by
  by_cases hp : phrase = .declaration
  · subst hp
    exact keeps_declaration hr
  · exact (descends_rulesOver hp).keeps hr

end Respect

/-- Every production leads to a position that is related to the one it started from, by each relation that the
elementary moves respect. -/
theorem keeps_produce {Q : Cursor → Cursor → Prop} [Respected Q] (n : Nat) (phrase : Phrase) :
    Keeps Q (produce n phrase) := by
  induction n generalizing phrase with
  | zero => exact fun c d => ⟨fun a h => (by cases h), fun e h => by cases h⟩
  | succ n ih => exact keeps_rulesOver ih phrase

end Treewalk.Grammar
