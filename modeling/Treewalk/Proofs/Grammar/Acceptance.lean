import Treewalk.Proofs.Grammar.Completeness

/-!
The parser accepts exactly the programs of the grammar, and reads each of them as the trees of its derivation.
-/

namespace Treewalk.Grammar

/-- The point before the first of the tokens. What stands behind the first end is no part of the program. -/
def Point.start (nextId : NodeId) (tokens : List Token) : Point :=
  ⟨tokens.takeWhile (!·.isFinish), nextId⟩

theorem Cursor.start_point (nextId : NodeId) (tokens : List Token) :
    (Cursor.start nextId tokens).point = Point.start nextId tokens := rfl

/-- A reading without an error is a derivation. -/
theorem derives_of_parse {nextId : NodeId} {tokens : List Token} (h : (parse nextId tokens).errors = []) :
    Derives .declarations (Point.start nextId tokens) (parse nextId tokens).statements
      ⟨[], (parse nextId tokens).nextId⟩ := by
  unfold parse at h ⊢
  have hne := produce_program_ne_exhausted (Cursor.start nextId tokens)
  cases hp : produce (nestingBound (Cursor.start nextId tokens).ahead.length) .program (Cursor.start nextId tokens) with
  | ok statements last =>
    simp only [hp] at h ⊢
    obtain ⟨-, hmeaning⟩ := reads_produce _ .program _ _ _ hp
    obtain ⟨hderives, hend⟩ := hmeaning (by simp [h])
    rw [Cursor.start_point] at hderives
    rwa [show last.point = ⟨[], last.nextId⟩ from congrArg (Point.mk · last.nextId) hend] at hderives
  | failed e last => simp [hp] at h
  | exhausted => exact absurd hp hne

theorem derives_of_parse_eq {nextId i : NodeId} {tokens : List Token} {trees : List Stmt}
    (h : parse nextId tokens = ⟨trees, [], i⟩) : Derives .declarations (Point.start nextId tokens) trees ⟨[], i⟩ := by
  have herrors : (parse nextId tokens).errors = [] := by rw [h]
  have hderives := derives_of_parse herrors
  rwa [h] at hderives

/-- What is derived is read without an error. -/
theorem parse_of_derives {nextId i : NodeId} {tokens : List Token} {trees : List Stmt}
    (h : Derives .declarations (Point.start nextId tokens) trees ⟨[], i⟩) :
    parse nextId tokens = ⟨trees, [], i⟩ := by
  unfold parse
  have hne := produce_program_ne_exhausted (Cursor.start nextId tokens)
  rcases gives_produce (nestingBound (Cursor.start nextId tokens).ahead.length) .program _ _ _ ⟨h, rfl⟩ rfl
    (Cursor.start nextId tokens) (Cursor.start_point nextId tokens) with hp | ⟨last, hp, hpoint, herrors⟩
  · exact absurd hp hne
  · have hi : last.nextId = i := congrArg Point.nextId hpoint
    simp only [hp, herrors, hi]
    rfl

/-- The parser notes no error exactly if the tokens up to the first end are a program of the grammar, and it reads them
as the trees of a derivation exactly if there is that derivation. -/
theorem parse_accepts_exactly_the_grammar (nextId : NodeId) (tokens : List Token) :
    ((parse nextId tokens).errors = [] ↔
      ∃ trees i, Derives .declarations (Point.start nextId tokens) trees ⟨[], i⟩) ∧
    ∀ trees i, parse nextId tokens = ⟨trees, [], i⟩ ↔
      Derives .declarations (Point.start nextId tokens) trees ⟨[], i⟩ := by
  refine ⟨⟨fun h => ⟨_, _, derives_of_parse h⟩, ?_⟩, fun trees i => ⟨derives_of_parse_eq, parse_of_derives⟩⟩
  rintro ⟨trees, i, h⟩
  rw [parse_of_derives h]

/-! ### A loop with three clauses -/

namespace Counting

def mark (s : Symbol) (offset : Nat) : Token := ⟨.symbol s, s.spelling, 1, offset⟩

def name (offset : Nat) : Token := ⟨.identifier, "i", 1, offset⟩

/-- The tokens of `for (var i = 0; i < 2; i++) print fun () {};`, and an end. -/
def tokens : List Token :=
  [mark .kwFor 0, mark .leftParen 4, mark .kwVar 5, name 9, mark .equal 11, ⟨.number 0, "0", 1, 13⟩, mark .semicolon 14,
    name 16, mark .less 18, ⟨.number 2, "2", 1, 20⟩, mark .semicolon 21, name 23, mark .plus 24, mark .plus 25,
    mark .rightParen 26, mark .kwPrint 28, mark .kwFun 34, mark .leftParen 38, mark .rightParen 39, mark .leftBrace 41,
    mark .rightBrace 42, mark .semicolon 43, ⟨.finish, "", 1, 44⟩]

/-- The increment is an assignment behind the body, and the function has a name at its keyword. -/
def tree : Stmt :=
  .block [.varDecl (name 9) (some (.literal (.number 0))),
    .whileLoop (.binary (.var 0 (name 16)) (mark .less 18) (.literal (.number 2)))
      (.block [.print (mark .kwPrint 28) [.lambda ⟨⟨.identifier, "anonymous", 1, 34⟩, [], []⟩],
        .expression (.assign 2 (name 23) (.binary (.var 1 (name 23)) (mark .plus 24) (.literal (.number 1))))])]

end Counting

/-- A loop is derived with its tree; without its last semicolon it is not derived at all. -/
theorem counting_loop_is_derived :
    parse 0 Counting.tokens = ⟨[Counting.tree], [], 3⟩ ∧
      Derives .declarations (Point.start 0 Counting.tokens) [Counting.tree] ⟨[], 3⟩ ∧
      ¬∃ trees i, Derives .declarations (Point.start 0 (Counting.tokens.take 21)) trees ⟨[], i⟩ := by
  have hparse : parse 0 Counting.tokens = ⟨[Counting.tree], [], 3⟩ := rfl
  have herrors : (parse 0 (Counting.tokens.take 21)).errors.isEmpty = false := rfl
  refine ⟨hparse, ((parse_accepts_exactly_the_grammar 0 Counting.tokens).2 _ _).mp hparse, fun hderives => ?_⟩
  rw [(parse_accepts_exactly_the_grammar 0 (Counting.tokens.take 21)).1.mpr hderives] at herrors
  cases herrors

end Treewalk.Grammar
