import Treewalk.Proofs.Scope.Visits
import Treewalk.Proofs.Tree.Relabeling

/-!
The check of a program goes by its names and not by its labels. With new labels that keep the tokens in their order, it
finds the same at the new places, and it records the same distances for the new identities.
-/

namespace Treewalk

/-- The order of tokens in a source stays as it is. -/
def Relabeling.Ordered (f : Relabeling) : Prop :=
  ∀ a b : Token, Scope.before (a.relabel f) (b.relabel f) = Scope.before a b

/-- The relation of tables is kept when one of them gets a distance and the other one the same for the new identity. -/
def Relabeling.Records (f : Relabeling) (T : Distances → Distances → Prop) : Prop :=
  ∀ d d' id n, T d d' → T (d.record id n) (d'.record (f.node id) n)

/-- The second table holds for the new identities what the first one holds. -/
def Distances.Twin (f : Relabeling) (d d' : Distances) : Prop :=
  ∀ id : Nat, d'.find? (f.node id) = d.find? id

theorem Relabeling.records_twin {f : Relabeling} (hf : ∀ a b, f.node a = f.node b → a = b) :
    f.Records (Distances.Twin f) := fun d d' id n h key => by
  rw [Distances.find?_record, Distances.find?_record, h key]
  by_cases hid : id = key
  · rw [if_pos hid, if_pos (congrArg f.node hid)]
  · rw [if_neg hid, if_neg fun h => hid (hf _ _ h)]

/-- The name with its token at its new place. -/
def LocalName.relabel (f : Relabeling) (entry : LocalName) : LocalName := { entry with token := entry.token.relabel f }

/-- The scope with its tokens at their new places. -/
def Scope.relabel (f : Relabeling) (scope : Scope) : Scope := scope.map (·.relabel f)

/-- The finding at its new place. -/
def Finding.relabel (f : Relabeling) : Finding → Finding
  | .fault token cause => .fault (token.relabel f) cause
  | .unused token => .unused (token.relabel f)

/-- Two checks that stand at the same point of a program, the second one with new labels. It began with findings of
its own, and the two tables are related. -/
structure Resolver.Twin (f : Relabeling) (T : Distances → Distances → Prop) (before : List Finding)
    (r r' : Resolver) : Prop where
  scopes : r'.scopes = r.scopes.map (Scope.relabel f)
  enclosing : r'.enclosing = r.enclosing
  inClass : r'.inClass = r.inClass
  loops : r'.loops = r.loops
  findings : r'.findings = before ++ r.findings.map (·.relabel f)
  distances : T r.distances r'.distances

/-! ### Scopes -/

theorem insertBy_map {α β : Type} (g : α → β) {le : α → α → Bool} {le' : β → β → Bool}
    (h : ∀ a b, le' (g a) (g b) = le a b) (a : α) (items : List α) :
    insertBy le' (g a) (items.map g) = (insertBy le a items).map g := by
  induction items with
  | nil => rfl
  | cons b rest ih =>
    rw [List.map_cons, insertBy, insertBy, h, ih]
    split
    · rfl
    · rfl

theorem sortBy_map {α β : Type} (g : α → β) {le : α → α → Bool} {le' : β → β → Bool}
    (h : ∀ a b, le' (g a) (g b) = le a b) (items : List α) : sortBy le' (items.map g) = (sortBy le items).map g := by
  induction items with
  | nil => rfl
  | cons a rest ih => rw [List.map_cons, sortBy, sortBy, ih, insertBy_map g h]

namespace Scope

variable (f : Relabeling) (scope : Scope)

theorem find?_relabel (name : String) : (scope.relabel f).find? name = (scope.find? name).map (·.relabel f) :=
  List.find?_map ..

theorem modify_relabel (name : String) {change : LocalName → LocalName}
    (h : ∀ entry, change (entry.relabel f) = (change entry).relabel f) :
    (scope.relabel f).modify name change = (scope.modify name change).relabel f := by
  simp only [modify, relabel, List.map_map]
  refine List.map_congr_left fun entry _ => ?_
  show (if entry.token.lexeme == name then change (entry.relabel f) else entry.relabel f)
    = (if entry.token.lexeme == name then change entry else entry).relabel f
  split
  · exact h entry
  · rfl

theorem declare_relabel (token : Token) :
    (scope.relabel f).declare (token.relabel f) = (scope.declare token).relabel f := by
  simp only [declare, relabel, List.map_append]
  rfl

theorem define_relabel (name : String) : (scope.relabel f).define name = (scope.define name).relabel f :=
  modify_relabel f scope name fun _ => rfl

theorem use_relabel (name : String) : (scope.relabel f).use name = (scope.use name).relabel f :=
  modify_relabel f scope name fun _ => rfl

theorem unused_relabel (hf : f.Ordered) : (scope.relabel f).unused = scope.unused.map (·.relabel f) := by
  have hrest : ∀ entries : List LocalName,
      ((entries.map (·.relabel f)).filter fun entry => !entry.used && !isDiscard entry.token.lexeme).map (·.token)
        = ((entries.filter fun entry => !entry.used && !isDiscard entry.token.lexeme).map (·.token)).map
            (·.relabel f) := fun entries => by
    rw [List.filter_map, List.map_map, List.map_map]
    rfl
  unfold unused relabel
  rw [hrest, sortBy_map (fun t : Token => t.relabel f) hf]

end Scope

/-! ### Steps of the check -/

namespace Resolver.Twin

variable {f : Relabeling} {T : Distances → Distances → Prop} {before : List Finding} {r r' : Resolver}

theorem find (h : r.Twin f T before r') (findings : List Finding) :
    { r with findings := r.findings ++ findings }.Twin f T before
      { r' with findings := r'.findings ++ findings.map (Finding.relabel f) } :=
  { h with findings := by rw [List.map_append, ← List.append_assoc, h.findings] }

theorem refuse (h : r.Twin f T before r') (token : Token) (fault : ScopeFault) :
    (r.refuse token fault).Twin f T before (r'.refuse (token.relabel f) fault) :=
  h.find [.fault token fault]

theorem withScopes (h : r.Twin f T before r') (scopes : List Scope) :
    { r with scopes }.Twin f T before { r' with scopes := scopes.map (Scope.relabel f) } :=
  { h with scopes := rfl }

theorem openScope (h : r.Twin f T before r') : r.openScope.Twin f T before r'.openScope := by
  have hscopes : r'.openScope = { r' with scopes := ([] :: r.scopes).map (Scope.relabel f) } := by
    rw [Resolver.openScope, h.scopes]
    rfl
  rw [hscopes]
  exact h.withScopes _

theorem openReceiver (h : r.Twin f T before r') (className : Token) :
    (r.openReceiver className).Twin f T before (r'.openReceiver (className.relabel f)) := by
  have hscopes : r'.openReceiver (className.relabel f) = { r' with
      scopes := ([⟨className.standIn (.symbol .kwThis) "this", true, true⟩] :: r.scopes).map (Scope.relabel f) } := by
    rw [Resolver.openReceiver, h.scopes]
    rfl
  rw [hscopes]
  exact h.withScopes _

theorem closeScope (hf : f.Ordered) (h : r.Twin f T before r') : r.closeScope.Twin f T before r'.closeScope := by
  have hscopes := h.scopes
  unfold Resolver.closeScope
  cases hr : r.scopes with
  | nil =>
    rw [hr] at hscopes
    rw [hscopes]
    exact h
  | cons scope outer =>
    rw [hr] at hscopes
    rw [hscopes, List.map_cons]
    have hunused : ((Scope.relabel f scope).unused).map Finding.unused
        = (scope.unused.map Finding.unused).map (·.relabel f) := by
      rw [Scope.unused_relabel f scope hf, List.map_map, List.map_map]
      rfl
    dsimp only
    rw [hunused]
    exact (h.withScopes outer).find _

theorem declare (h : r.Twin f T before r') (token : Token) :
    (r.declare token).Twin f T before (r'.declare (token.relabel f)) := by
  have hscopes := h.scopes
  unfold Resolver.declare
  cases hr : r.scopes with
  | nil =>
    rw [hr] at hscopes
    rw [hscopes]
    exact h
  | cons scope outer =>
    rw [hr] at hscopes
    rw [hscopes, List.map_cons]
    dsimp only
    have hfind : ((Scope.relabel f scope).find? (token.relabel f).lexeme).isSome
        = (scope.find? token.lexeme).isSome := by
      rw [Scope.find?_relabel, Option.isSome_map]
      rfl
    rw [hfind, Scope.declare_relabel]
    split
    · exact h.refuse token .redeclared
    · exact h.withScopes (scope.declare token :: outer)

theorem define (h : r.Twin f T before r') (token : Token) :
    (r.define token).Twin f T before (r'.define (token.relabel f)) := by
  have hscopes := h.scopes
  unfold Resolver.define
  cases hr : r.scopes with
  | nil =>
    rw [hr] at hscopes
    rw [hscopes]
    exact h
  | cons scope outer =>
    rw [hr] at hscopes
    rw [hscopes, List.map_cons]
    dsimp only
    rw [Scope.define_relabel]
    exact h.withScopes (scope.define token.lexeme :: outer)

theorem introduce (h : r.Twin f T before r') (token : Token) :
    (r.introduce token).Twin f T before (r'.introduce (token.relabel f)) :=
  (h.declare token).define token

theorem introduceAll (h : r.Twin f T before r') (tokens : List Token) :
    (tokens.foldl Resolver.introduce r).Twin f T before
      ((tokens.map (·.relabel f)).foldl Resolver.introduce r') := by
  induction tokens generalizing r r' with
  | nil => exact h
  | cons token rest ih => exact ih (h.introduce token)

theorem checkRead (h : r.Twin f T before r') (token : Token) :
    (r.checkRead token).Twin f T before (r'.checkRead (token.relabel f)) := by
  have hown : r'.inOwnInitializer (token.relabel f).lexeme = r.inOwnInitializer token.lexeme := by
    unfold Resolver.inOwnInitializer
    rw [h.scopes]
    cases r.scopes with
    | nil => rfl
    | cons scope outer =>
      rw [List.map_cons]
      dsimp only
      rw [Scope.find?_relabel, Option.any_map]
      rfl
  unfold Resolver.checkRead
  rw [hown]
  split
  · exact h.refuse token .ownInitializer
  · exact h

theorem refer (hT : f.Records T) (h : r.Twin f T before r') (id : Nat) (token : Token) :
    (r.refer id token).Twin f T before (r'.refer (f.node id) (token.relabel f)) := by
  have hdistance : distance? r'.scopes (token.relabel f).lexeme = distance? r.scopes token.lexeme := by
    unfold distance?
    rw [h.scopes, List.findIdx?_map]
    congr 1
    funext scope
    show ((Scope.relabel f scope).find? token.lexeme).isSome = _
    rw [Scope.find?_relabel, Option.isSome_map]
  unfold Resolver.refer
  rw [hdistance]
  cases distance? r.scopes token.lexeme with
  | none => exact { h with scopes := h.scopes }
  | some d =>
    refine { h with scopes := ?_, distances := hT _ _ _ _ h.distances }
    show r'.scopes.modify d (·.use token.lexeme) = (r.scopes.modify d (·.use token.lexeme)).map (Scope.relabel f)
    refine List.ext_getElem? fun i => ?_
    rw [h.scopes, List.getElem?_map, List.getElem?_modify, List.getElem?_modify, List.getElem?_map]
    cases r.scopes[i]? with
    | none => rfl
    | some scope =>
      show some _ = some _
      congr 1
      split
      · exact Scope.use_relabel f scope token.lexeme
      · rfl

theorem looped (h : r.Twin f T before r') (change : Nat → Nat) :
    { r with loops := change r.loops }.Twin f T before { r' with loops := change r'.loops } := by
  rw [h.loops]
  exact { h with loops := rfl }

theorem inBody (h : r.Twin f T before r') (enclosing : Enclosing) (loops : Nat) :
    { r with enclosing, loops }.Twin f T before { r' with enclosing, loops } :=
  { h with enclosing := rfl, loops := rfl }

theorem inClassBody (h : r.Twin f T before r') (inClass : Bool) :
    { r with inClass }.Twin f T before { r' with inClass } :=
  { h with inClass := rfl }

theorem checkParent (h : r.Twin f T before r') (name parent : Token) :
    (if parent.lexeme == name.lexeme then r.refuse parent .inheritsItself else r).Twin f T before
      (if parent.lexeme == name.lexeme then r'.refuse (parent.relabel f) .inheritsItself else r') := by
  split
  · exact h.refuse parent .inheritsItself
  · exact h

theorem checkReturn (h : r.Twin f T before r') (keyword : Token) :
    (if r.enclosing = .none then r.refuse keyword .returnOutsideFunction else r).Twin f T before
      (if r'.enclosing = .none then r'.refuse (keyword.relabel f) .returnOutsideFunction else r') := by
  rw [h.enclosing]
  split
  · exact h.refuse keyword .returnOutsideFunction
  · exact h

end Resolver.Twin

/-! ### Trees -/

mutual

theorem Expr.resolve_twin {f : Relabeling} {T : Distances → Distances → Prop} {before : List Finding}
    (hf : f.Ordered) (hT : f.Records T) : ∀ (e : Expr) {r r' : Resolver}, r.Twin f T before r' →
    (e.resolve r).Twin f T before ((e.relabel f).resolve r')
  | .literal _, _, _, h => h
  | .array _ _, _, _, h => h
  | .unary _ right, _, _, h => right.resolve_twin hf hT h
  | .binary left _ right, _, _, h => right.resolve_twin hf hT (left.resolve_twin hf hT h)
  | .logical left _ right, _, _, h => right.resolve_twin hf hT (left.resolve_twin hf hT h)
  | .grouping inner, _, _, h => inner.resolve_twin hf hT h
  | .var id name, _, _, h => (h.checkRead name).refer hT id name
  | .global _, _, _, h => h
  | .assign id name value, _, _, h => (value.resolve_twin hf hT h).refer hT id name
  | .ternary condition _ yes no, _, _, h =>
    no.resolve_twin hf hT (yes.resolve_twin hf hT (condition.resolve_twin hf hT h))
  | .call callee _ arguments, _, _, h => Expr.resolveAll_twin hf hT arguments (callee.resolve_twin hf hT h)
  | .lambda routine, _, _, h => routine.resolve_twin hf hT .function h
  | .get object _, _, _, h => object.resolve_twin hf hT h
  | .set object _ value, _, _, h => object.resolve_twin hf hT (value.resolve_twin hf hT h)
  | .this id keyword, r, r', h => by
    rw [Expr.relabel, Expr.resolve, Expr.resolve, h.inClass]
    split
    · exact h.refer hT id keyword
    · exact h.refuse keyword .thisOutsideClass
  | .subscript id name index, _, _, h => index.resolve_twin hf hT ((h.checkRead name).refer hT id name)

theorem Expr.resolveAll_twin {f : Relabeling} {T : Distances → Distances → Prop} {before : List Finding}
    (hf : f.Ordered) (hT : f.Records T) : ∀ (es : List Expr) {r r' : Resolver}, r.Twin f T before r' →
    (Expr.resolveAll es r).Twin f T before (Expr.resolveAll (Expr.relabelAll f es) r')
  | [], _, _, h => h
  | e :: rest, _, _, h => Expr.resolveAll_twin hf hT rest (e.resolve_twin hf hT h)

theorem Stmt.resolve_twin {f : Relabeling} {T : Distances → Distances → Prop} {before : List Finding}
    (hf : f.Ordered) (hT : f.Records T) : ∀ (s : Stmt) {r r' : Resolver}, r.Twin f T before r' →
    (s.resolve r).Twin f T before ((s.relabel f).resolve r')
  | .expression value, _, _, h => value.resolve_twin hf hT h
  | .print _ values, _, _, h => Expr.resolveAll_twin hf hT values h
  | .varDecl name none, _, _, h => h.introduce name
  | .varDecl name (some value), _, _, h => (value.resolve_twin hf hT (h.declare name)).define name
  | .block body, _, _, h => (Stmt.resolveAll_twin hf hT body h.openScope).closeScope hf
  | .ifElse condition yes none, _, _, h => yes.resolve_twin hf hT (condition.resolve_twin hf hT h)
  | .ifElse condition yes (some no), _, _, h =>
    no.resolve_twin hf hT (yes.resolve_twin hf hT (condition.resolve_twin hf hT h))
  | .whileLoop condition body, _, _, h =>
    (body.resolve_twin hf hT ((condition.resolve_twin hf hT h).looped (· + 1))).looped (· - 1)
  | .function routine, _, _, h => by
    obtain ⟨name, params, body⟩ := routine
    exact Routine.resolve_twin hf hT .function ⟨name, params, body⟩ (h.introduce name)
  | .breakLoop keyword, r, r', h => by
    rw [Stmt.relabel, Stmt.resolve, Stmt.resolve, h.loops]
    split
    · exact h.refuse keyword .breakOutsideLoop
    · exact h
  | .returnValue keyword none, _, _, h => h.checkReturn keyword
  | .returnValue keyword (some value), _, _, h => value.resolve_twin hf hT (h.checkReturn keyword)
  | .classDecl name parent methods, r, r', h => by
    have hname := (h.inClassBody true).introduce name
    have finish : ∀ {q q' : Resolver}, q.Twin f T before q' →
        { (Routine.resolveMethods methods (q.openReceiver name)).closeScope with inClass := r.inClass }.Twin f T before
          { (Routine.resolveMethods (Routine.relabelAll f methods) (q'.openReceiver (name.relabel f))).closeScope with
            inClass := r'.inClass } := fun hq => by
      rw [h.inClass]
      exact ((Routine.resolveMethods_twin hf hT methods (hq.openReceiver name)).closeScope hf).inClassBody r.inClass
    cases parent with
    | none => exact finish hname
    | some e =>
      cases e with
      | var id token => exact finish (((hname.checkParent name token).checkRead token).refer hT id token)
      | _ => exact finish (Expr.resolve_twin hf hT _ hname)
  | .useLibrary _ _, _, _, h => h

theorem Stmt.resolveAll_twin {f : Relabeling} {T : Distances → Distances → Prop} {before : List Finding}
    (hf : f.Ordered) (hT : f.Records T) : ∀ (body : List Stmt) {r r' : Resolver}, r.Twin f T before r' →
    (Stmt.resolveAll body r).Twin f T before (Stmt.resolveAll (Stmt.relabelAll f body) r')
  | [], _, _, h => h
  | s :: rest, _, _, h => Stmt.resolveAll_twin hf hT rest (s.resolve_twin hf hT h)

theorem Routine.resolve_twin {f : Relabeling} {T : Distances → Distances → Prop} {before : List Finding}
    (hf : f.Ordered) (hT : f.Records T) (kind : Enclosing) : ∀ (routine : Routine) {r r' : Resolver},
    r.Twin f T before r' → (routine.resolve kind r).Twin f T before ((routine.relabel f).resolve kind r')
  | ⟨_, params, body⟩, r, r', h => by
    rw [Routine.relabel, Routine.resolve, Routine.resolve, h.enclosing, h.loops]
    have hinside := (h.inBody kind 0).openScope.introduceAll params
    exact ((Stmt.resolveAll_twin hf hT body hinside).closeScope hf).inBody r.enclosing r.loops

theorem Routine.resolveMethods_twin {f : Relabeling} {T : Distances → Distances → Prop} {before : List Finding}
    (hf : f.Ordered) (hT : f.Records T) : ∀ (methods : List Routine) {r r' : Resolver}, r.Twin f T before r' →
    (Routine.resolveMethods methods r).Twin f T before (Routine.resolveMethods (Routine.relabelAll f methods) r')
  | [], _, _, h => h
  | ⟨name, params, body⟩ :: rest, _, _, h =>
    Routine.resolveMethods_twin hf hT rest (Routine.resolve_twin hf hT _ ⟨name, params, body⟩ h)

end

end Treewalk
