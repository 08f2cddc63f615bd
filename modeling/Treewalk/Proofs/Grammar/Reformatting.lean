import Mathlib.Data.List.Forall2
import Treewalk.Program
import Treewalk.Proofs.Grammar.Layout
import Treewalk.Tree.Printer

/-!
Programs that are laid out in another way. Lines and offsets come into trees and errors, but nothing is decided by them
apart from whether two signs touch: two lists of the same tokens in which the same signs touch are read as the same
trees with the same texts and identities, and with the same errors at other lines.
-/

namespace Treewalk

/-! ### The text of a tree does not tell its labels -/

theorem Token.relabel_lexeme (f : Relabeling) (t : Token) : (t.relabel f).lexeme = t.lexeme := rfl

mutual

theorem Expr.text_relabel (f : Relabeling) : ∀ e : Expr, (e.relabel f).text = e.text
  | .literal _ => rfl
  | .array _ _ => rfl
  | .unary _ right => by simp only [Expr.relabel, Expr.text, right.text_relabel f, Token.relabel_lexeme]
  | .binary left _ right => by
    simp only [Expr.relabel, Expr.text, left.text_relabel f, right.text_relabel f, Token.relabel_lexeme]
  | .logical left _ right => by
    simp only [Expr.relabel, Expr.text, left.text_relabel f, right.text_relabel f, Token.relabel_lexeme]
  | .grouping inner => by simp only [Expr.relabel, Expr.text, inner.text_relabel f]
  | .var _ _ => rfl
  | .global _ => rfl
  | .assign _ _ value => by simp only [Expr.relabel, Expr.text, value.text_relabel f, Token.relabel_lexeme]
  | .ternary condition _ yes no => by
    simp only [Expr.relabel, Expr.text, condition.text_relabel f, yes.text_relabel f, no.text_relabel f]
  | .call callee _ arguments => by
    simp only [Expr.relabel, Expr.text, callee.text_relabel f, Expr.texts_relabelAll f arguments]
  | .lambda routine => by simp only [Expr.relabel, Expr.text, routine.text_relabel f]
  | .get object _ => by simp only [Expr.relabel, Expr.text, object.text_relabel f, Token.relabel_lexeme]
  | .set object _ value => by
    simp only [Expr.relabel, Expr.text, object.text_relabel f, value.text_relabel f, Token.relabel_lexeme]
  | .this _ _ => rfl
  | .subscript _ _ index => by simp only [Expr.relabel, Expr.text, index.text_relabel f, Token.relabel_lexeme]

theorem Expr.texts_relabelAll (f : Relabeling) : ∀ es : List Expr, Expr.texts (Expr.relabelAll f es) = Expr.texts es
  | [] => rfl
  | e :: rest => by simp only [Expr.relabelAll, Expr.texts, e.text_relabel f, Expr.texts_relabelAll f rest]

theorem Stmt.text_relabel (f : Relabeling) : ∀ s : Stmt, (s.relabel f).text = s.text
  | .expression value => by simp only [Stmt.relabel, Stmt.text, value.text_relabel f]
  | .print _ values => by simp only [Stmt.relabel, Stmt.text, Expr.texts_relabelAll f values]
  | .varDecl _ none => rfl
  | .varDecl _ (some value) => by simp only [Stmt.relabel, Stmt.text, value.text_relabel f, Token.relabel_lexeme]
  | .block body => by simp only [Stmt.relabel, Stmt.text, Stmt.texts_relabelAll f body]
  | .ifElse condition yes none => by simp only [Stmt.relabel, Stmt.text, condition.text_relabel f, yes.text_relabel f]
  | .ifElse condition yes (some no) => by
    simp only [Stmt.relabel, Stmt.text, condition.text_relabel f, yes.text_relabel f, no.text_relabel f]
  | .whileLoop condition body => by simp only [Stmt.relabel, Stmt.text, condition.text_relabel f, body.text_relabel f]
  | .function routine => by simp only [Stmt.relabel, Stmt.text, routine.text_relabel f]
  | .breakLoop _ => rfl
  | .returnValue _ none => rfl
  | .returnValue _ (some value) => by simp only [Stmt.relabel, Stmt.text, value.text_relabel f]
  | .classDecl _ none methods => by simp only [Stmt.relabel, Stmt.text, Routine.texts_relabelAll f methods, Token.relabel_lexeme]
  | .classDecl _ (some parent) methods => by
    simp only [Stmt.relabel, Stmt.text, parent.text_relabel f, Routine.texts_relabelAll f methods, Token.relabel_lexeme]
  | .useLibrary _ _ => rfl

theorem Stmt.texts_relabelAll (f : Relabeling) : ∀ ss : List Stmt, Stmt.texts (Stmt.relabelAll f ss) = Stmt.texts ss
  | [] => rfl
  | s :: rest => by simp only [Stmt.relabelAll, Stmt.texts, s.text_relabel f, Stmt.texts_relabelAll f rest]

theorem Routine.text_relabel (f : Relabeling) {tag : String} : ∀ r : Routine, (r.relabel f).text tag = r.text tag
  | ⟨name, params, body⟩ => by
    have hparams : (params.map (·.relabel f)).map Token.lexeme = params.map Token.lexeme := List.map_map
    simp only [Routine.relabel, Routine.text, hparams, Stmt.texts_relabelAll f body, Token.relabel_lexeme]

theorem Routine.texts_relabelAll (f : Relabeling) :
    ∀ rs : List Routine, Routine.texts (Routine.relabelAll f rs) = Routine.texts rs
  | [] => rfl
  | r :: rest => by simp only [Routine.relabelAll, Routine.texts, r.text_relabel f, Routine.texts_relabelAll f rest]

end

namespace Grammar

/-! ### Signs that touch -/

/-- The two tokens are the same but for where they stand. -/
def SameToken (a b : Token) : Prop :=
  a.kind = b.kind ∧ a.lexeme = b.lexeme

/-- At the index stand two equal signs, plus or minus, with consecutive offsets. -/
def SignsTouch (tokens : List Token) (i : Nat) : Prop :=
  ∃ a b, tokens[i]? = some a ∧ tokens[i + 1]? = some b ∧
    ((a.is .plus ∧ b.is .plus) ∨ (a.is .minus ∧ b.is .minus)) ∧ b.offset = a.offset + 1

theorem signsTouch_iff_gapless (tokens : List Token) (i : Nat) : SignsTouch tokens i ↔ gapless (tokens.drop i) := by
  induction tokens generalizing i with
  | nil => simp [SignsTouch, gapless]
  | cons a rest ih =>
    cases i with
    | zero =>
      cases rest with
      | nil => simp [SignsTouch, gapless]
      | cons b rest => simp [SignsTouch, gapless]
    | succ i => exact ih i

theorem SameToken.alike {a b : Token} (h : SameToken a b) : Token.Alike .erase .erase a b := by
  simp only [Token.Alike, Token.relabel, h.1, h.2]
  rfl

theorem sameLayout_of_signsTouch {ts us : List Token} (hsame : List.Forall₂ SameToken ts us)
    (htouch : ∀ i, SignsTouch ts i ↔ SignsTouch us i) : SameLayout .erase .erase ts us := by
  induction hsame with
  | nil => trivial
  | cons hab _ ih =>
    refine ⟨hab.alike, ?_, ih fun i => htouch (i + 1)⟩
    have hfront := htouch 0
    rw [signsTouch_iff_gapless, signsTouch_iff_gapless] at hfront
    exact Bool.eq_iff_iff.mpr hfront

/-! ### The same readings at other places -/

/-- The two errors say the same, each at its line. -/
def SameError (e e' : ParseError) : Prop :=
  e.relabel .erase = e'.relabel .erase ∧
    ∃ words, e.diagnostic.text = Diagnostic.atLine e.token.line words ∧
      e'.diagnostic.text = Diagnostic.atLine e'.token.line words

theorem sameError_of_relabel {e e' : ParseError} (h : e.relabel .erase = e'.relabel .erase) : SameError e e' := by
  obtain ⟨htoken, hfault⟩ := ParseError.mk.inj h
  obtain ⟨hkind, hlexeme, -, -⟩ := Token.mk.inj htoken
  have hwords : (Place.ofToken e.token).words = (Place.ofToken e'.token).words := by
    unfold Place.words Place.ofToken Token.isFinish
    rw [hkind, hlexeme]
  refine ⟨h, "Error" ++ (Place.ofToken e.token).words ++ ": " ++ e.fault.message, rfl, ?_⟩
  rw [hwords, hfault]
  rfl

theorem forall₂_sameError {es es' : List ParseError}
    (h : es.map (·.relabel .erase) = es'.map (·.relabel .erase)) : List.Forall₂ SameError es es' := by
  have hrelabel : List.Forall₂ (· = ·) (es.map (·.relabel .erase)) (es'.map (·.relabel .erase)) := by
    rw [List.forall₂_eq_eq_eq]
    exact h
  exact (List.forall₂_map_left_iff.mp (List.forall₂_map_right_iff.mp hrelabel)).imp fun _ _ => sameError_of_relabel

/-- The two readings differ in the lines and offsets of tokens only. -/
structure Reading.SameButForPlaces (r r' : Reading) : Prop where
  statements : Stmt.relabelAll .erase r.statements = Stmt.relabelAll .erase r'.statements
  texts : Stmt.texts r.statements = Stmt.texts r'.statements
  nextId : r.nextId = r'.nextId
  errors : List.Forall₂ SameError r.errors r'.errors

/-- Two lists of the same tokens, in which the same signs touch, are read the same but for the places: the same trees
with the same identities and texts, and the same errors at their lines. This holds of any tokens, also if the end is
missing or they are no program. -/
theorem layout_matters_to_increments_only (nextId : NodeId) {ts us : List Token} (hsame : List.Forall₂ SameToken ts us)
    (htouch : ∀ i, SignsTouch ts i ↔ SignsTouch us i) :
    (parse nextId ts).SameButForPlaces (parse nextId us) := by
  have hstart : (Cursor.start nextId ts).Twin .erase .erase (Cursor.start nextId us) :=
    .start rfl (sameLayout_of_signsTouch hsame htouch) (.inr rfl)
  have hcounts : Relabeling.erase.Counts := fun _ => rfl
  obtain ⟨hstatements, herrors, hnext⟩ := parse_twin hcounts hcounts hstart
  refine ⟨hstatements, ?_, hnext, forall₂_sameError herrors⟩
  rw [← Stmt.texts_relabelAll .erase, hstatements, Stmt.texts_relabelAll]

namespace Spread

/-- An increment and a token that fits nowhere, on one line. -/
def close : List Token :=
  [⟨.identifier, "x", 1, 0⟩, ⟨.symbol .plus, "+", 1, 1⟩, ⟨.symbol .plus, "+", 1, 2⟩, ⟨.symbol .semicolon, ";", 1, 3⟩,
   ⟨.symbol .rightParen, ")", 1, 4⟩]

/-- The same on lines of their own; only the signs still touch. -/
def wide : List Token :=
  [⟨.identifier, "x", 1, 0⟩, ⟨.symbol .plus, "+", 2, 3⟩, ⟨.symbol .plus, "+", 2, 4⟩, ⟨.symbol .semicolon, ";", 3, 8⟩,
   ⟨.symbol .rightParen, ")", 4, 10⟩]

theorem close_read_as_wide : (parse 0 close).SameButForPlaces (parse 0 wide) := by
  refine layout_matters_to_increments_only 0 ?_ fun i => ?_
  · exact .cons ⟨rfl, rfl⟩ (.cons ⟨rfl, rfl⟩ (.cons ⟨rfl, rfl⟩ (.cons ⟨rfl, rfl⟩ (.cons ⟨rfl, rfl⟩ .nil))))
  · rw [signsTouch_iff_gapless, signsTouch_iff_gapless]
    match i with
    | 0 => decide
    | 1 => decide
    | 2 => decide
    | 3 => decide
    | 4 => decide
    | i + 5 => rfl

end Spread

end Grammar

end Treewalk
