import Treewalk.Scope.Basic

/-!
Trees that say the same in chains of frames of different shape. Two chains are laid side by side in layers: a frame
stands in both of them or in one only. A tree is the counterpart of another one if the two differ in the identities of
their references only, and each reference finds at its distance in the second chain what the other one finds in the
first.
-/

namespace Treewalk

/-- Where a frame stands when two chains are laid side by side. -/
inductive Layer where
  | shared
  | first
  | second
deriving DecidableEq, Repr

/-- Two chains side by side, from the innermost frames outwards. Behind the layers they go on as one. -/
abbrev Layers := List Layer

namespace Layers

/-- The distance in the second chain of what is at a distance in the first one, unless it stands there only. -/
def along : Layers → Nat → Option Nat
  | [], distance => some distance
  | .shared :: _, 0 => some 0
  | .shared :: outer, distance + 1 => (along outer distance).map (· + 1)
  | .first :: _, 0 => none
  | .first :: outer, distance + 1 => along outer distance
  | .second :: outer, distance => (along outer distance).map (· + 1)

/-- The innermost frames of the two chains stand for each other. -/
def Level : Layers → Prop
  | .first :: _ => False
  | .second :: _ => False
  | _ => True

end Layers

/-- Two references that find the same, each by the distance recorded in its own table. -/
def Refers (d d' : Distances) (layers : Layers) (id id' : NodeId) : Prop :=
  (d.find? id).map layers.along = (d'.find? id').map some

/-- Without a distance on the one side there is none on the other, and from one distance the other follows. -/
theorem Refers.cases {d d' : Distances} {layers : Layers} {id id' : NodeId} (h : Refers d d' layers id id') :
    (d.find? id = none ∧ d'.find? id' = none) ∨
      ∃ n n', d.find? id = some n ∧ d'.find? id' = some n' ∧ layers.along n = some n' := by
  unfold Refers at h
  cases hd : d.find? id with
  | none =>
    rw [hd, Option.map_none, eq_comm, Option.map_eq_none_iff] at h
    exact .inl ⟨rfl, h⟩
  | some n =>
    rw [hd, Option.map_some, eq_comm, Option.map_eq_some_iff] at h
    obtain ⟨n', hn', hsome⟩ := h
    exact .inr ⟨n, n', rfl, hn', hsome.symm⟩

mutual

/-- The second expression is the counterpart of the first one. -/
inductive Expr.Matches (d d' : Distances) : Layers → Expr → Expr → Prop
  | literal {layers : Layers} {value : Literal} : Expr.Matches d d' layers (.literal value) (.literal value)
  | array {layers : Layers} {bracket : Token} {items : List Literal} :
    Expr.Matches d d' layers (.array bracket items) (.array bracket items)
  | unary {layers : Layers} {operator : Token} {right right' : Expr} (h : Expr.Matches d d' layers right right') :
    Expr.Matches d d' layers (.unary operator right) (.unary operator right')
  | binary {layers : Layers} {left left' : Expr} {operator : Token} {right right' : Expr}
    (h : Expr.Matches d d' layers left left') (k : Expr.Matches d d' layers right right') :
    Expr.Matches d d' layers (.binary left operator right) (.binary left' operator right')
  | logical {layers : Layers} {left left' : Expr} {operator : Token} {right right' : Expr}
    (h : Expr.Matches d d' layers left left') (k : Expr.Matches d d' layers right right') :
    Expr.Matches d d' layers (.logical left operator right) (.logical left' operator right')
  | grouping {layers : Layers} {inner inner' : Expr} (h : Expr.Matches d d' layers inner inner') :
    Expr.Matches d d' layers (.grouping inner) (.grouping inner')
  | var {layers : Layers} {id id' : NodeId} {name : Token} (h : Refers d d' layers id id') :
    Expr.Matches d d' layers (.var id name) (.var id' name)
  | global {layers : Layers} {name : Token} : Expr.Matches d d' layers (.global name) (.global name)
  | assign {layers : Layers} {id id' : NodeId} {name : Token} {value value' : Expr}
    (h : Refers d d' layers id id') (k : Expr.Matches d d' layers value value') :
    Expr.Matches d d' layers (.assign id name value) (.assign id' name value')
  | ternary {layers : Layers} {condition condition' : Expr} {question : Token} {yes yes' no no' : Expr}
    (h : Expr.Matches d d' layers condition condition') (k : Expr.Matches d d' layers yes yes')
    (l : Expr.Matches d d' layers no no') :
    Expr.Matches d d' layers (.ternary condition question yes no) (.ternary condition' question yes' no')
  | call {layers : Layers} {callee callee' : Expr} {paren : Token} {arguments arguments' : List Expr}
    (h : Expr.Matches d d' layers callee callee') (k : Expr.AllMatch d d' layers arguments arguments') :
    Expr.Matches d d' layers (.call callee paren arguments) (.call callee' paren arguments')
  | lambda {layers : Layers} {routine routine' : Routine} (h : Routine.Matches d d' layers routine routine') :
    Expr.Matches d d' layers (.lambda routine) (.lambda routine')
  | get {layers : Layers} {object object' : Expr} {name : Token} (h : Expr.Matches d d' layers object object') :
    Expr.Matches d d' layers (.get object name) (.get object' name)
  | set {layers : Layers} {object object' : Expr} {name : Token} {value value' : Expr}
    (h : Expr.Matches d d' layers object object') (k : Expr.Matches d d' layers value value') :
    Expr.Matches d d' layers (.set object name value) (.set object' name value')
  | this {layers : Layers} {id id' : NodeId} {keyword : Token} (h : Refers d d' layers id id') :
    Expr.Matches d d' layers (.this id keyword) (.this id' keyword)
  | subscript {layers : Layers} {id id' : NodeId} {name : Token} {index index' : Expr}
    (h : Refers d d' layers id id') (k : Expr.Matches d d' layers index index') :
    Expr.Matches d d' layers (.subscript id name index) (.subscript id' name index')

/-- The expressions of the second list are the counterparts of those of the first one. -/
inductive Expr.AllMatch (d d' : Distances) : Layers → List Expr → List Expr → Prop
  | nil {layers : Layers} : Expr.AllMatch d d' layers [] []
  | cons {layers : Layers} {e e' : Expr} {rest rest' : List Expr} (h : Expr.Matches d d' layers e e')
    (k : Expr.AllMatch d d' layers rest rest') : Expr.AllMatch d d' layers (e :: rest) (e' :: rest')

/-- The second statement is the counterpart of the first one. Names are declared only where the innermost frames stand
for each other. -/
inductive Stmt.Matches (d d' : Distances) : Layers → Stmt → Stmt → Prop
  | expression {layers : Layers} {value value' : Expr} (h : Expr.Matches d d' layers value value') :
    Stmt.Matches d d' layers (.expression value) (.expression value')
  | print {layers : Layers} {keyword : Token} {values values' : List Expr}
    (h : Expr.AllMatch d d' layers values values') :
    Stmt.Matches d d' layers (.print keyword values) (.print keyword values')
  | varUnset {layers : Layers} {name : Token} (level : layers.Level) :
    Stmt.Matches d d' layers (.varDecl name none) (.varDecl name none)
  | varSet {layers : Layers} {name : Token} {value value' : Expr} (level : layers.Level)
    (h : Expr.Matches d d' layers value value') :
    Stmt.Matches d d' layers (.varDecl name (some value)) (.varDecl name (some value'))
  | block {layers : Layers} {body body' : List Stmt} (h : Stmt.AllMatch d d' (.shared :: layers) body body') :
    Stmt.Matches d d' layers (.block body) (.block body')
  | ifOnly {layers : Layers} {condition condition' : Expr} {yes yes' : Stmt}
    (h : Expr.Matches d d' layers condition condition') (k : Stmt.Matches d d' layers yes yes') :
    Stmt.Matches d d' layers (.ifElse condition yes none) (.ifElse condition' yes' none)
  | ifElse {layers : Layers} {condition condition' : Expr} {yes yes' no no' : Stmt}
    (h : Expr.Matches d d' layers condition condition') (k : Stmt.Matches d d' layers yes yes')
    (l : Stmt.Matches d d' layers no no') :
    Stmt.Matches d d' layers (.ifElse condition yes (some no)) (.ifElse condition' yes' (some no'))
  | whileLoop {layers : Layers} {condition condition' : Expr} {body body' : Stmt}
    (h : Expr.Matches d d' layers condition condition') (k : Stmt.Matches d d' layers body body') :
    Stmt.Matches d d' layers (.whileLoop condition body) (.whileLoop condition' body')
  | function {layers : Layers} {routine routine' : Routine} (level : layers.Level)
    (h : Routine.Matches d d' layers routine routine') :
    Stmt.Matches d d' layers (.function routine) (.function routine')
  | breakLoop {layers : Layers} {keyword : Token} :
    Stmt.Matches d d' layers (.breakLoop keyword) (.breakLoop keyword)
  | returnNothing {layers : Layers} {keyword : Token} :
    Stmt.Matches d d' layers (.returnValue keyword none) (.returnValue keyword none)
  | returnValue {layers : Layers} {keyword : Token} {value value' : Expr}
    (h : Expr.Matches d d' layers value value') :
    Stmt.Matches d d' layers (.returnValue keyword (some value)) (.returnValue keyword (some value'))
  | classOnly {layers : Layers} {name : Token} {methods methods' : List Routine} (level : layers.Level)
    (h : Routine.AllMatch d d' (.shared :: layers) methods methods') :
    Stmt.Matches d d' layers (.classDecl name none methods) (.classDecl name none methods')
  | classBelow {layers : Layers} {name : Token} {parent parent' : Expr} {methods methods' : List Routine}
    (level : layers.Level) (h : Expr.Matches d d' layers parent parent')
    (k : Routine.AllMatch d d' (.shared :: layers) methods methods') :
    Stmt.Matches d d' layers (.classDecl name (some parent) methods) (.classDecl name (some parent') methods')
  | useLibrary {layers : Layers} {keyword path : Token} :
    Stmt.Matches d d' layers (.useLibrary keyword path) (.useLibrary keyword path)

/-- The statements of the second list are the counterparts of those of the first one. -/
inductive Stmt.AllMatch (d d' : Distances) : Layers → List Stmt → List Stmt → Prop
  | nil {layers : Layers} : Stmt.AllMatch d d' layers [] []
  | cons {layers : Layers} {s s' : Stmt} {rest rest' : List Stmt} (h : Stmt.Matches d d' layers s s')
    (k : Stmt.AllMatch d d' layers rest rest') : Stmt.AllMatch d d' layers (s :: rest) (s' :: rest')

/-- The second routine is the counterpart of the first one. Its body runs in a frame of its own. -/
inductive Routine.Matches (d d' : Distances) : Layers → Routine → Routine → Prop
  | mk {layers : Layers} {name : Token} {params : List Token} {body body' : List Stmt}
    (h : Stmt.AllMatch d d' (.shared :: layers) body body') :
    Routine.Matches d d' layers ⟨name, params, body⟩ ⟨name, params, body'⟩

/-- The routines of the second list are the counterparts of those of the first one. -/
inductive Routine.AllMatch (d d' : Distances) : Layers → List Routine → List Routine → Prop
  | nil {layers : Layers} : Routine.AllMatch d d' layers [] []
  | cons {layers : Layers} {r r' : Routine} {rest rest' : List Routine} (h : Routine.Matches d d' layers r r')
    (k : Routine.AllMatch d d' layers rest rest') : Routine.AllMatch d d' layers (r :: rest) (r' :: rest')

end

variable {d d' : Distances} {layers : Layers}

theorem Routine.Matches.name_eq {r r' : Routine} (h : Routine.Matches d d' layers r r') : r'.name = r.name := by
  cases h
  rfl

theorem Routine.Matches.params_eq {r r' : Routine} (h : Routine.Matches d d' layers r r') :
    r'.params = r.params := by
  cases h
  rfl

theorem Routine.Matches.body {r r' : Routine} (h : Routine.Matches d d' layers r r') :
    Stmt.AllMatch d d' (.shared :: layers) r.body r'.body := by
  cases h
  assumption

/-- A failure at an expression is reported at the line of its counterpart. -/
theorem Expr.Matches.line?_eq : ∀ {layers : Layers} {e e' : Expr}, Expr.Matches d d' layers e e' → e'.line? = e.line?
  | _, .grouping _, _, .grouping h => h.line?_eq
  | _, .lambda _, _, .lambda h => congrArg (fun name : Token => some name.line) h.name_eq
  | _, .literal _, _, .literal => rfl
  | _, .array _ _, _, .array => rfl
  | _, .unary _ _, _, .unary _ => rfl
  | _, .binary _ _ _, _, .binary _ _ => rfl
  | _, .logical _ _ _, _, .logical _ _ => rfl
  | _, .var _ _, _, .var _ => rfl
  | _, .global _, _, .global => rfl
  | _, .assign _ _ _, _, .assign _ _ => rfl
  | _, .ternary _ _ _ _, _, .ternary _ _ _ => rfl
  | _, .call _ _ _, _, .call _ _ => rfl
  | _, .get _ _, _, .get _ => rfl
  | _, .set _ _ _, _, .set _ _ => rfl
  | _, .this _ _, _, .this _ => rfl
  | _, .subscript _ _ _, _, .subscript _ _ => rfl

end Treewalk
