import Treewalk.Tree.Reference

/-!
Trees up to what they carry for the record: the identities of their nodes, and the lines and offsets of their tokens.
A relabeling gives new ones throughout a tree and leaves all else, so that two trees that differ in them only have a
common relabeling.
-/

namespace Treewalk

/-- New identities for nodes, and new lines and offsets for tokens. -/
structure Relabeling where
  node : Nat → Nat
  line : Nat → Nat
  offset : Nat → Nat

/-- The token at its new line and offset. -/
def Token.relabel (f : Relabeling) (t : Token) : Token :=
  { t with line := f.line t.line, offset := f.offset t.offset }

mutual

/-- The expression with new labels. -/
def Expr.relabel (f : Relabeling) : Expr → Expr
  | .literal value => .literal value
  | .array bracket items => .array (bracket.relabel f) items
  | .unary operator right => .unary (operator.relabel f) (right.relabel f)
  | .binary left operator right => .binary (left.relabel f) (operator.relabel f) (right.relabel f)
  | .logical left operator right => .logical (left.relabel f) (operator.relabel f) (right.relabel f)
  | .grouping inner => .grouping (inner.relabel f)
  | .var id name => .var (f.node id) (name.relabel f)
  | .global name => .global (name.relabel f)
  | .assign id name value => .assign (f.node id) (name.relabel f) (value.relabel f)
  | .ternary condition question yes no =>
    .ternary (condition.relabel f) (question.relabel f) (yes.relabel f) (no.relabel f)
  | .call callee paren arguments => .call (callee.relabel f) (paren.relabel f) (Expr.relabelAll f arguments)
  | .lambda routine => .lambda (routine.relabel f)
  | .get object name => .get (object.relabel f) (name.relabel f)
  | .set object name value => .set (object.relabel f) (name.relabel f) (value.relabel f)
  | .this id keyword => .this (f.node id) (keyword.relabel f)
  | .subscript id name index => .subscript (f.node id) (name.relabel f) (index.relabel f)

/-- The expressions with new labels. -/
def Expr.relabelAll (f : Relabeling) : List Expr → List Expr
  | [] => []
  | e :: rest => e.relabel f :: Expr.relabelAll f rest

/-- The statement with new labels. -/
def Stmt.relabel (f : Relabeling) : Stmt → Stmt
  | .expression value => .expression (value.relabel f)
  | .print keyword values => .print (keyword.relabel f) (Expr.relabelAll f values)
  | .varDecl name none => .varDecl (name.relabel f) none
  | .varDecl name (some value) => .varDecl (name.relabel f) (some (value.relabel f))
  | .block body => .block (Stmt.relabelAll f body)
  | .ifElse condition yes none => .ifElse (condition.relabel f) (yes.relabel f) none
  | .ifElse condition yes (some no) => .ifElse (condition.relabel f) (yes.relabel f) (some (no.relabel f))
  | .whileLoop condition body => .whileLoop (condition.relabel f) (body.relabel f)
  | .function routine => .function (routine.relabel f)
  | .breakLoop keyword => .breakLoop (keyword.relabel f)
  | .returnValue keyword none => .returnValue (keyword.relabel f) none
  | .returnValue keyword (some value) => .returnValue (keyword.relabel f) (some (value.relabel f))
  | .classDecl name none methods => .classDecl (name.relabel f) none (Routine.relabelAll f methods)
  | .classDecl name (some parent) methods =>
    .classDecl (name.relabel f) (some (parent.relabel f)) (Routine.relabelAll f methods)
  | .useLibrary keyword path => .useLibrary (keyword.relabel f) (path.relabel f)

/-- The statements with new labels. -/
def Stmt.relabelAll (f : Relabeling) : List Stmt → List Stmt
  | [] => []
  | s :: rest => s.relabel f :: Stmt.relabelAll f rest

/-- The routine with new labels. -/
def Routine.relabel (f : Relabeling) : Routine → Routine
  | ⟨name, params, body⟩ => ⟨name.relabel f, params.map (·.relabel f), Stmt.relabelAll f body⟩

/-- The routines with new labels. -/
def Routine.relabelAll (f : Relabeling) : List Routine → List Routine
  | [] => []
  | r :: rest => r.relabel f :: Routine.relabelAll f rest

end

theorem Routine.relabelAll_eq_map (f : Relabeling) (methods : List Routine) :
    Routine.relabelAll f methods = methods.map (·.relabel f) := by
  induction methods with
  | nil => rfl
  | cons r rest ih => rw [Routine.relabelAll, ih, List.map_cons]

namespace Relabeling

/-- The relabeling that changes nothing. -/
def same : Relabeling := ⟨fun n => n, fun n => n, fun n => n⟩

/-- Forgets lines and offsets. -/
def erase : Relabeling := ⟨fun n => n, fun _ => 0, fun _ => 0⟩

/-- Moves everything onwards by the given numbers of identities, lines and bytes. -/
def shift (nodes lines bytes : Nat) : Relabeling := ⟨(· + nodes), (· + lines), (· + bytes)⟩

end Relabeling

theorem Token.relabel_same (t : Token) : t.relabel .same = t := rfl

theorem Token.map_relabel_same (ts : List Token) : ts.map (Token.relabel .same) = ts :=
  (List.map_congr_left fun t _ => t.relabel_same).trans (List.map_id ts)

mutual

theorem Expr.relabel_same : ∀ e : Expr, e.relabel .same = e
  | .literal _ => rfl
  | .array _ _ => rfl
  | .unary _ right => by rw [Expr.relabel, right.relabel_same, Token.relabel_same]
  | .binary left _ right => by rw [Expr.relabel, left.relabel_same, right.relabel_same, Token.relabel_same]
  | .logical left _ right => by rw [Expr.relabel, left.relabel_same, right.relabel_same, Token.relabel_same]
  | .grouping inner => by rw [Expr.relabel, inner.relabel_same]
  | .var _ _ => rfl
  | .global _ => rfl
  | .assign id _ value => by rw [Expr.relabel, value.relabel_same, Token.relabel_same]; rfl
  | .ternary condition _ yes no => by
    rw [Expr.relabel, condition.relabel_same, yes.relabel_same, no.relabel_same, Token.relabel_same]
  | .call callee _ arguments => by
    rw [Expr.relabel, callee.relabel_same, Expr.relabelAll_same arguments, Token.relabel_same]
  | .lambda routine => by rw [Expr.relabel, routine.relabel_same]
  | .get object _ => by rw [Expr.relabel, object.relabel_same, Token.relabel_same]
  | .set object _ value => by rw [Expr.relabel, object.relabel_same, value.relabel_same, Token.relabel_same]
  | .this _ _ => rfl
  | .subscript id _ index => by rw [Expr.relabel, index.relabel_same, Token.relabel_same]; rfl

theorem Expr.relabelAll_same : ∀ es : List Expr, Expr.relabelAll .same es = es
  | [] => rfl
  | e :: rest => by rw [Expr.relabelAll, e.relabel_same, Expr.relabelAll_same rest]

theorem Stmt.relabel_same : ∀ s : Stmt, s.relabel .same = s
  | .expression value => by rw [Stmt.relabel, value.relabel_same]
  | .print _ values => by rw [Stmt.relabel, Expr.relabelAll_same values, Token.relabel_same]
  | .varDecl _ none => rfl
  | .varDecl _ (some value) => by rw [Stmt.relabel, value.relabel_same, Token.relabel_same]
  | .block body => by rw [Stmt.relabel, Stmt.relabelAll_same body]
  | .ifElse condition yes none => by rw [Stmt.relabel, condition.relabel_same, yes.relabel_same]
  | .ifElse condition yes (some no) => by
    rw [Stmt.relabel, condition.relabel_same, yes.relabel_same, no.relabel_same]
  | .whileLoop condition body => by rw [Stmt.relabel, condition.relabel_same, body.relabel_same]
  | .function routine => by rw [Stmt.relabel, routine.relabel_same]
  | .breakLoop _ => rfl
  | .returnValue _ none => rfl
  | .returnValue _ (some value) => by rw [Stmt.relabel, value.relabel_same, Token.relabel_same]
  | .classDecl _ none methods => by rw [Stmt.relabel, Routine.relabelAll_same methods, Token.relabel_same]
  | .classDecl _ (some parent) methods => by
    rw [Stmt.relabel, parent.relabel_same, Routine.relabelAll_same methods, Token.relabel_same]
  | .useLibrary _ _ => rfl

theorem Stmt.relabelAll_same : ∀ body : List Stmt, Stmt.relabelAll .same body = body
  | [] => rfl
  | s :: rest => by rw [Stmt.relabelAll, s.relabel_same, Stmt.relabelAll_same rest]

theorem Routine.relabel_same : ∀ r : Routine, r.relabel .same = r
  | ⟨_, params, body⟩ => by
    rw [Routine.relabel, Stmt.relabelAll_same body, Token.map_relabel_same, Token.relabel_same]

theorem Routine.relabelAll_same : ∀ methods : List Routine, Routine.relabelAll .same methods = methods
  | [] => rfl
  | r :: rest => by rw [Routine.relabelAll, r.relabel_same, Routine.relabelAll_same rest]

end

/-! ### One relabeling after another -/

/-- The third relabeling of tokens does at once what the first two do one after the other. -/
structure Relabeling.Composes (f g h : Relabeling) : Prop where
  line : ∀ n, g.line (f.line n) = h.line n
  offset : ∀ n, g.offset (f.offset n) = h.offset n

/-- So it is with the identities of the given references. -/
def Relabeling.ComposesAt (f g h : Relabeling) (references : List Reference) : Prop :=
  ∀ x ∈ references, g.node (f.node x.id) = h.node x.id

theorem Relabeling.composesAt_append {f g h : Relabeling} {a b : List Reference} :
    f.ComposesAt g h (a ++ b) ↔ f.ComposesAt g h a ∧ f.ComposesAt g h b :=
  List.forall_mem_append

theorem Relabeling.composesAt_cons {f g h : Relabeling} {x : Reference} {a : List Reference} :
    f.ComposesAt g h (x :: a) ↔ g.node (f.node x.id) = h.node x.id ∧ f.ComposesAt g h a :=
  List.forall_mem_cons

section Composition
variable {f g h : Relabeling} (hc : f.Composes g h)
include hc

theorem Token.relabel_relabel (t : Token) : (t.relabel f).relabel g = t.relabel h := by
  simp only [Token.relabel, hc.line, hc.offset]

theorem Token.map_relabel_relabel (ts : List Token) :
    (ts.map (·.relabel f)).map (·.relabel g) = ts.map (·.relabel h) := by
  rw [List.map_map]
  exact List.map_congr_left fun t _ => Token.relabel_relabel hc t

end Composition

mutual

theorem Expr.relabel_relabel {f g h : Relabeling} (hc : f.Composes g h) : ∀ e : Expr,
    f.ComposesAt g h e.references → (e.relabel f).relabel g = e.relabel h
  | .literal _, _ => rfl
  | .array _ _, _ => by simp only [Expr.relabel, Token.relabel_relabel hc]
  | .unary _ right, hr => by simp only [Expr.relabel, Token.relabel_relabel hc, right.relabel_relabel hc hr]
  | .binary left _ right, hr => by
    obtain ⟨hl, hr⟩ := Relabeling.composesAt_append.mp hr
    simp only [Expr.relabel, Token.relabel_relabel hc, left.relabel_relabel hc hl, right.relabel_relabel hc hr]
  | .logical left _ right, hr => by
    obtain ⟨hl, hr⟩ := Relabeling.composesAt_append.mp hr
    simp only [Expr.relabel, Token.relabel_relabel hc, left.relabel_relabel hc hl, right.relabel_relabel hc hr]
  | .grouping inner, hr => by simp only [Expr.relabel, inner.relabel_relabel hc hr]
  | .var id name, hr => by
    have hid : g.node (f.node id) = h.node id := hr ⟨.var, id, name⟩ List.mem_cons_self
    simp only [Expr.relabel, Token.relabel_relabel hc, hid]
  | .global _, _ => by simp only [Expr.relabel, Token.relabel_relabel hc]
  | .assign _ _ value, hr => by
    obtain ⟨hid, hr⟩ := Relabeling.composesAt_cons.mp hr
    simp only [Expr.relabel, Token.relabel_relabel hc, hid, value.relabel_relabel hc hr]
  | .ternary condition _ yes no, hr => by
    obtain ⟨hr, hno⟩ := Relabeling.composesAt_append.mp hr
    obtain ⟨hcond, hyes⟩ := Relabeling.composesAt_append.mp hr
    simp only [Expr.relabel, Token.relabel_relabel hc, condition.relabel_relabel hc hcond,
      yes.relabel_relabel hc hyes, no.relabel_relabel hc hno]
  | .call callee _ arguments, hr => by
    obtain ⟨hcallee, hargs⟩ := Relabeling.composesAt_append.mp hr
    simp only [Expr.relabel, Token.relabel_relabel hc, callee.relabel_relabel hc hcallee,
      Expr.relabelAll_relabelAll hc arguments hargs]
  | .lambda routine, hr => by simp only [Expr.relabel, routine.relabel_relabel hc hr]
  | .get object _, hr => by simp only [Expr.relabel, Token.relabel_relabel hc, object.relabel_relabel hc hr]
  | .set object _ value, hr => by
    obtain ⟨hobject, hvalue⟩ := Relabeling.composesAt_append.mp hr
    simp only [Expr.relabel, Token.relabel_relabel hc, object.relabel_relabel hc hobject,
      value.relabel_relabel hc hvalue]
  | .this id keyword, hr => by
    have hid : g.node (f.node id) = h.node id := hr ⟨.this, id, keyword⟩ List.mem_cons_self
    simp only [Expr.relabel, Token.relabel_relabel hc, hid]
  | .subscript _ _ index, hr => by
    obtain ⟨hid, hr⟩ := Relabeling.composesAt_cons.mp hr
    simp only [Expr.relabel, Token.relabel_relabel hc, hid, index.relabel_relabel hc hr]

theorem Expr.relabelAll_relabelAll {f g h : Relabeling} (hc : f.Composes g h) : ∀ es : List Expr,
    f.ComposesAt g h (Expr.allReferences es) → Expr.relabelAll g (Expr.relabelAll f es) = Expr.relabelAll h es
  | [], _ => rfl
  | e :: rest, hr => by
    obtain ⟨he, hrest⟩ := Relabeling.composesAt_append.mp hr
    simp only [Expr.relabelAll, e.relabel_relabel hc he, Expr.relabelAll_relabelAll hc rest hrest]

theorem Stmt.relabel_relabel {f g h : Relabeling} (hc : f.Composes g h) : ∀ s : Stmt,
    f.ComposesAt g h s.references → (s.relabel f).relabel g = s.relabel h
  | .expression value, hr => by simp only [Stmt.relabel, value.relabel_relabel hc hr]
  | .print _ values, hr => by
    simp only [Stmt.relabel, Token.relabel_relabel hc, Expr.relabelAll_relabelAll hc values hr]
  | .varDecl _ none, _ => by simp only [Stmt.relabel, Token.relabel_relabel hc]
  | .varDecl _ (some value), hr => by
    simp only [Stmt.relabel, Token.relabel_relabel hc, value.relabel_relabel hc hr]
  | .block body, hr => by simp only [Stmt.relabel, Stmt.relabelAll_relabelAll hc body hr]
  | .ifElse condition yes none, hr => by
    obtain ⟨hcond, hyes⟩ := Relabeling.composesAt_append.mp hr
    simp only [Stmt.relabel, condition.relabel_relabel hc hcond, yes.relabel_relabel hc hyes]
  | .ifElse condition yes (some no), hr => by
    obtain ⟨hr, hno⟩ := Relabeling.composesAt_append.mp hr
    obtain ⟨hcond, hyes⟩ := Relabeling.composesAt_append.mp hr
    simp only [Stmt.relabel, condition.relabel_relabel hc hcond, yes.relabel_relabel hc hyes,
      no.relabel_relabel hc hno]
  | .whileLoop condition body, hr => by
    obtain ⟨hcond, hbody⟩ := Relabeling.composesAt_append.mp hr
    simp only [Stmt.relabel, condition.relabel_relabel hc hcond, body.relabel_relabel hc hbody]
  | .function routine, hr => by simp only [Stmt.relabel, routine.relabel_relabel hc hr]
  | .breakLoop _, _ => by simp only [Stmt.relabel, Token.relabel_relabel hc]
  | .returnValue _ none, _ => by simp only [Stmt.relabel, Token.relabel_relabel hc]
  | .returnValue _ (some value), hr => by
    simp only [Stmt.relabel, Token.relabel_relabel hc, value.relabel_relabel hc hr]
  | .classDecl _ none methods, hr => by
    simp only [Stmt.relabel, Token.relabel_relabel hc, Routine.relabelAll_relabelAll hc methods hr]
  | .classDecl _ (some parent) methods, hr => by
    obtain ⟨hparent, hmethods⟩ := Relabeling.composesAt_append.mp hr
    simp only [Stmt.relabel, Token.relabel_relabel hc, parent.relabel_relabel hc hparent,
      Routine.relabelAll_relabelAll hc methods hmethods]
  | .useLibrary _ _, _ => by simp only [Stmt.relabel, Token.relabel_relabel hc]

theorem Stmt.relabelAll_relabelAll {f g h : Relabeling} (hc : f.Composes g h) : ∀ body : List Stmt,
    f.ComposesAt g h (Stmt.allReferences body) → Stmt.relabelAll g (Stmt.relabelAll f body) = Stmt.relabelAll h body
  | [], _ => rfl
  | s :: rest, hr => by
    obtain ⟨hs, hrest⟩ := Relabeling.composesAt_append.mp hr
    simp only [Stmt.relabelAll, s.relabel_relabel hc hs, Stmt.relabelAll_relabelAll hc rest hrest]

theorem Routine.relabel_relabel {f g h : Relabeling} (hc : f.Composes g h) : ∀ r : Routine,
    f.ComposesAt g h r.references → (r.relabel f).relabel g = r.relabel h
  | ⟨_, params, body⟩, hr => by
    simp only [Routine.relabel, Token.relabel_relabel hc, Token.map_relabel_relabel hc params,
      Stmt.relabelAll_relabelAll hc body hr]

theorem Routine.relabelAll_relabelAll {f g h : Relabeling} (hc : f.Composes g h) : ∀ methods : List Routine,
    f.ComposesAt g h (Routine.allReferences methods) →
    Routine.relabelAll g (Routine.relabelAll f methods) = Routine.relabelAll h methods
  | [], _ => rfl
  | r :: rest, hr => by
    obtain ⟨hr, hrest⟩ := Relabeling.composesAt_append.mp hr
    simp only [Routine.relabelAll, r.relabel_relabel hc hr, Routine.relabelAll_relabelAll hc rest hrest]

end

/-! ### Relabelings that come to the same -/

section Agreement
variable {f g : Relabeling} (hline : ∀ n, f.line n = g.line n) (hoffset : ∀ n, f.offset n = g.offset n)
include hline hoffset

theorem Stmt.relabelAll_congr {body : List Stmt} (h : ∀ x ∈ Stmt.allReferences body, f.node x.id = g.node x.id) :
    Stmt.relabelAll f body = Stmt.relabelAll g body := by
  have hcompose := Stmt.relabelAll_relabelAll (f := .same) ⟨hline, hoffset⟩ body h
  rwa [Stmt.relabelAll_same] at hcompose

theorem Routine.relabel_congr {r : Routine} (h : ∀ x ∈ r.references, f.node x.id = g.node x.id) :
    r.relabel f = r.relabel g := by
  have hcompose := Routine.relabel_relabel (f := .same) ⟨hline, hoffset⟩ r h
  rwa [Routine.relabel_same] at hcompose

end Agreement

end Treewalk
