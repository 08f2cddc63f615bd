import Mathlib.Data.List.Forall2
import Treewalk.Proofs.Scope.Visits
import Treewalk.Proofs.Tree.Outline

/-!
The open scopes and the distances behind a tree. Of the names in the scopes around it only the marks of those that are
referred to are new; the innermost scope also has what a statement declares in it, with a value. A distance is never
recorded that leads beyond the open scopes.

Between two statements all names of their scope have their values: a statement gives a value to the names that it
declares, also to one that stood in the innermost scope without a value.
-/

namespace Treewalk

/-- The names that a statement declares in the scope in which it stands. -/
def Stmt.declares : Stmt → List Token
  | .varDecl name _ => [name]
  | .function routine => [routine.name]
  | .classDecl name _ _ => [name]
  | .ifElse _ yes none => yes.declares
  | .ifElse _ yes (some no) => yes.declares ++ no.declares
  | .whileLoop _ body => body.declares
  | _ => []

/-! ### Names -/

/-- A name that stays as it is, but for the mark that something refers to it. -/
structure LocalName.Kept (x y : LocalName) : Prop where
  token : y.token = x.token
  defined : y.defined = x.defined
  used : x.used → y.used

/-- A name of a scope in which names are declared: those that are declared have a value afterwards. -/
structure LocalName.Settles (declared : List Token) (x y : LocalName) : Prop where
  token : y.token = x.token
  defined : y.defined = (x.defined || declared.any (·.lexeme == x.token.lexeme))
  used : x.used → y.used

namespace LocalName

variable {x y z : LocalName} {a b : List Token}

theorem Kept.refl (x : LocalName) : x.Kept x := ⟨rfl, rfl, id⟩

theorem Kept.trans (h : x.Kept y) (h' : y.Kept z) : x.Kept z :=
  ⟨h'.token.trans h.token, h'.defined.trans h.defined, h'.used ∘ h.used⟩

theorem Settles.trans (h : x.Settles a y) (h' : y.Settles b z) : x.Settles (a ++ b) z := by
  refine ⟨h'.token.trans h.token, ?_, h'.used ∘ h.used⟩
  rw [h'.defined, h.defined, h.token, List.any_append, Bool.or_assoc]

theorem settles_nil : x.Settles [] y ↔ x.Kept y := by
  constructor
  · intro h
    exact ⟨h.token, by simpa using h.defined, h.used⟩
  · intro h
    exact ⟨h.token, by simpa using h.defined, h.used⟩

/-- A name that has its value keeps it. -/
theorem Settles.kept (h : x.Settles a y) (hx : x.defined = true) : x.Kept y :=
  ⟨h.token, by rw [h.defined, hx, Bool.true_or], h.used⟩

end LocalName

theorem forall₂_trans {α : Type} {R : α → α → Prop} (hR : ∀ {a b c}, R a b → R b c → R a c) {xs ys zs : List α}
    (h : List.Forall₂ R xs ys) (h' : List.Forall₂ R ys zs) : List.Forall₂ R xs zs := by
  induction h generalizing zs with
  | nil => exact h'
  | cons hxy _ ih =>
    cases h' with
    | cons hyz hrest => exact .cons (hR hxy hyz) (ih hrest)

/-! ### Scopes -/

namespace Scope

/-- The names of a scope stay as they are, but for marks. -/
def Kept (scope scope' : Scope) : Prop := List.Forall₂ LocalName.Kept scope scope'

/-- The old names of a scope are in their places, and those that are new are declared ones with a value. -/
inductive Extends (declared : List Token) : Scope → Scope → Prop where
  | new {added : Scope} (h : ∀ x ∈ added, x.token ∈ declared ∧ x.defined = true) : Extends declared [] added
  | old {x y : LocalName} {rest rest' : Scope} (h : x.Settles declared y) (hrest : Extends declared rest rest') :
      Extends declared (x :: rest) (y :: rest')

/-- A scope in which names are declared: of those that are spelled alike it has the first one. -/
structure Gains (declared : List Token) (scope scope' : Scope) : Prop where
  tokens : scope'.map (·.token) = declared.foldl addName (scope.map (·.token))
  entries : Extends declared scope scope'

variable {scope scope' scope'' : Scope} {a b : List Token}

theorem Kept.refl (scope : Scope) : scope.Kept scope := List.forall₂_same.mpr fun x _ => .refl x

theorem Kept.trans (h : scope.Kept scope') (h' : scope'.Kept scope'') : scope.Kept scope'' :=
  forall₂_trans (fun hx hy => hx.trans hy) h h'

theorem Kept.tokens (h : scope.Kept scope') : scope'.map (·.token) = scope.map (·.token) := by
  induction h with
  | nil => rfl
  | cons hx _ ih => rw [List.map_cons, List.map_cons, hx.token, ih]

theorem kept_use (scope : Scope) (name : String) : scope.Kept (scope.use name) := by
  unfold Kept use modify
  rw [List.forall₂_map_right_iff, List.forall₂_same]
  intro x _
  split
  · exact ⟨rfl, rfl, fun _ => rfl⟩
  · exact .refl x

theorem Kept.extends (h : scope.Kept scope') : Extends [] scope scope' := by
  induction h with
  | nil => exact .new nofun
  | cons hx _ ih => exact .old (LocalName.settles_nil.mpr hx) ih

theorem Kept.gains (h : scope.Kept scope') : scope.Gains [] scope' := ⟨h.tokens, h.extends⟩

theorem Extends.kept (h : Extends [] scope scope') : scope.Kept scope' := by
  induction h with
  | @new added hnew =>
    cases added with
    | nil => exact .nil
    | cons x rest => exact absurd (hnew x List.mem_cons_self).1 List.not_mem_nil
  | old hx _ ih => exact .cons (LocalName.settles_nil.mp hx) ih

/-- Where nothing is added, names that were new stay new and have their values. -/
theorem Extends.added (h : Extends b scope scope') (hnew : ∀ x ∈ scope, x.token ∈ a ∧ x.defined = true) :
    ∀ y ∈ scope', y.token ∈ a ++ b ∧ y.defined = true := by
  induction h with
  | new hadded => exact fun y hy => ⟨List.mem_append_right _ (hadded y hy).1, (hadded y hy).2⟩
  | @old x y rest rest' hxy _ ih =>
    obtain ⟨⟨htoken, hdefined⟩, hrest⟩ := List.forall_mem_cons.mp hnew
    refine List.forall_mem_cons.mpr ⟨⟨List.mem_append_left _ (hxy.token ▸ htoken), ?_⟩, ih hrest⟩
    rw [hxy.defined, hdefined, Bool.true_or]

theorem Extends.trans (h : Extends a scope scope') (h' : Extends b scope' scope'') :
    Extends (a ++ b) scope scope'' := by
  induction h generalizing scope'' with
  | new hnew => exact .new (h'.added hnew)
  | old hxy _ ih =>
    cases h' with
    | old hyz hrest => exact .old (hxy.trans hyz) (ih hrest)

theorem Gains.trans (h : scope.Gains a scope') (h' : scope'.Gains b scope'') : scope.Gains (a ++ b) scope'' :=
  ⟨by rw [h'.tokens, h.tokens, List.foldl_append], h.entries.trans h'.entries⟩

/-- Where all names have their values, those that are new have theirs too. -/
theorem Extends.defined (h : Extends a scope scope') (hdefined : ∀ x ∈ scope, x.defined = true) :
    ∀ y ∈ scope', y.defined = true := by
  induction h with
  | new hnew => exact fun y hy => (hnew y hy).2
  | old hxy _ ih =>
    obtain ⟨hx, hrest⟩ := List.forall_mem_cons.mp hdefined
    refine List.forall_mem_cons.mpr ⟨?_, ih hrest⟩
    rw [hxy.defined, hx, Bool.true_or]

/-- What a scope had is kept, if all of it had values. -/
theorem Extends.split (h : Extends a scope scope') (hdefined : ∀ x ∈ scope, x.defined = true) :
    ∃ old new, scope' = old ++ new ∧ scope.Kept old ∧ ∀ y ∈ new, y.token ∈ a := by
  induction h with
  | @new added hnew => exact ⟨[], added, rfl, .nil, fun y hy => (hnew y hy).1⟩
  | @old x y rest rest' hxy _ ih =>
    obtain ⟨hx, hrest⟩ := List.forall_mem_cons.mp hdefined
    obtain ⟨old, new, rfl, hold, hnew⟩ := ih hrest
    exact ⟨y :: old, new, rfl, .cons (hxy.kept hx) hold, hnew⟩

theorem tokens_define (scope : Scope) (name : String) : (scope.define name).map (·.token) = scope.map (·.token) := by
  unfold define modify
  rw [List.map_map]
  refine List.map_congr_left fun x _ => ?_
  simp only [Function.comp]
  split
  · rfl
  · rfl

theorem tokens_declare (scope : Scope) (token : Token) :
    (if (scope.find? token.lexeme).isSome then scope else scope.declare token).map (·.token) =
      addName (scope.map (·.token)) token := by
  have hany : (scope.map (·.token)).any (·.lexeme == token.lexeme) = (scope.find? token.lexeme).isSome := by
    rw [Resolver.find?_isSome, Bool.eq_iff_iff]
    simp
  rw [addName, hany]
  split
  · rfl
  · rw [declare, List.map_append]
    rfl

/-- Behind what leaves a scope as it is, the name that was declared in it gets its value. -/
theorem Kept.extends_define {token : Token} {added : Scope} (hadded : ∀ x ∈ added, x.token = token)
    (h : Kept (scope ++ added) scope') : Extends [token] scope (scope'.define token.lexeme) := by
  induction scope generalizing scope' with
  | nil =>
    refine .new fun y hy => ?_
    obtain ⟨z, hz, rfl⟩ := List.mem_map.mp hy
    have htoken : z.token = token := by
      have hmem : z.token ∈ added.map (·.token) := h.tokens ▸ List.mem_map_of_mem hz
      obtain ⟨x, hx, heq⟩ := List.mem_map.mp hmem
      exact heq ▸ hadded x hx
    rw [if_pos (by rw [htoken, beq_self_eq_true])]
    exact ⟨List.mem_singleton.mpr htoken, rfl⟩
  | cons x rest ih =>
    cases h with
    | @cons _ y _ rest' hxy hrest =>
      refine .old ?_ (ih hrest)
      have hname : [token].any (·.lexeme == x.token.lexeme) = (y.token.lexeme == token.lexeme) := by
        rw [hxy.token, List.any_cons, List.any_nil, Bool.or_false, Bool.beq_comm]
      dsimp only
      split
      · next heq => exact ⟨hxy.token, by rw [hname, heq, Bool.or_true], hxy.used⟩
      · next hne => exact ⟨hxy.token, by rw [hname, Bool.eq_false_iff.mpr hne, Bool.or_false, hxy.defined], hxy.used⟩

/-- A name is declared, and has its value behind what leaves the scope as it is. -/
theorem gains_define {token : Token} (h : Kept (if (scope.find? token.lexeme).isSome then scope else scope.declare token)
    scope') : scope.Gains [token] (scope'.define token.lexeme) := by
  refine ⟨?_, ?_⟩
  · rw [tokens_define, h.tokens, tokens_declare]
    rfl
  · split at h
    · rw [← List.append_nil scope] at h
      exact h.extends_define fun _ hx => absurd hx List.not_mem_nil
    · refine Kept.extends_define (fun x hx => ?_) h
      rw [List.mem_singleton.mp hx]

end Scope

namespace Resolver

/-- The open scopes behind a tree: the innermost one has gained what was declared, and the outer ones are kept. -/
inductive Passes (declared : List Token) : List Scope → List Scope → Prop where
  | outermost : Passes declared [] []
  | within {scope scope' : Scope} {outer outer' : List Scope} (h : scope.Gains declared scope')
      (houter : List.Forall₂ Scope.Kept outer outer') : Passes declared (scope :: outer) (scope' :: outer')

namespace Passes

variable {a b : List Token} {scopes scopes' scopes'' : List Scope}

theorem of_kept (h : List.Forall₂ Scope.Kept scopes scopes') : Passes [] scopes scopes' := by
  cases h with
  | nil => exact .outermost
  | cons hscope houter => exact .within hscope.gains houter

theorem refl (scopes : List Scope) : Passes [] scopes scopes := of_kept (List.forall₂_same.mpr fun scope _ => .refl scope)

theorem kept (h : Passes [] scopes scopes') : List.Forall₂ Scope.Kept scopes scopes' := by
  cases h with
  | outermost => exact .nil
  | within hscope houter => exact .cons hscope.entries.kept houter

theorem trans (h : Passes a scopes scopes') (h' : Passes b scopes' scopes'') : Passes (a ++ b) scopes scopes'' := by
  cases h with
  | outermost =>
    cases h' with
    | outermost => exact .outermost
  | within hscope houter =>
    cases h' with
    | within hscope' houter' => exact .within (hscope.trans hscope') (forall₂_trans (fun hx hy => hx.trans hy) houter houter')

theorem length_eq (h : Passes a scopes scopes') : scopes'.length = scopes.length := by
  cases h with
  | outermost => rfl
  | within _ houter => exact congrArg (· + 1) houter.length_eq.symm

/-- Behind a scope that is closed again the scopes around it are kept. -/
theorem tail {scope : Scope} (h : Passes a (scope :: scopes) scopes') : Passes [] scopes scopes'.tail := by
  cases h with
  | within _ houter => exact of_kept houter

end Passes

/-- The scopes and the distances behind a tree, given the names that it declares and the visits in it. A distance that is
found afterwards was there before, or it was recorded at a visit and leads to one of the scopes that were open then. -/
structure Passing (declared : List Token) (visits : List Visit) (r r' : Resolver) : Prop where
  scopes : Passes declared r.scopes r'.scopes
  recorded : ∀ id d, r'.distances.find? id = some d →
    r.distances.find? id = some d ∨
      ∃ v ∈ visits, v.reference.id = id ∧ distance? v.scopes v.name = some d ∧ d < v.scopes.length

theorem distance?_lt {scopes : List Scope} {name : String} {d : Nat} (h : distance? scopes name = some d) :
    d < scopes.length := by
  obtain ⟨hlt, -⟩ := List.findIdx?_eq_some_iff_getElem.mp h
  exact hlt

theorem scopes_declare (r : Resolver) (token : Token) :
    (r.declare token).scopes =
      r.scopes.modifyHead fun scope => if (scope.find? token.lexeme).isSome then scope else scope.declare token := by
  unfold declare
  split
  · next h => rw [h]; rfl
  · next scope outer h =>
    rw [h, List.modifyHead_cons]
    split
    · exact h
    · rfl

theorem scopes_define (r : Resolver) (token : Token) :
    (r.define token).scopes = r.scopes.modifyHead (·.define token.lexeme) := by
  unfold define
  split
  · next h => rw [h]; rfl
  · next h => rw [h]; rfl

theorem kept_modify (scopes : List Scope) (d : Nat) (name : String) :
    List.Forall₂ Scope.Kept scopes (scopes.modify d (·.use name)) := by
  induction scopes generalizing d with
  | nil =>
    rw [List.modify_nil]
    exact .nil
  | cons scope outer ih =>
    cases d with
    | zero =>
      rw [List.modify_zero_cons]
      exact .cons (scope.kept_use name) (List.forall₂_same.mpr fun scope _ => .refl scope)
    | succ d =>
      rw [List.modify_succ_cons]
      exact .cons (.refl scope) (ih d)

namespace Passing

variable {r r' r'' : Resolver} {a b : List Token} {vs ws : List Visit}

theorem of_eq (hscopes : r'.scopes = r.scopes) (hdistances : r'.distances = r.distances) : Passing [] [] r r' :=
  ⟨hscopes ▸ .refl r.scopes, fun _ _ h => .inl (hdistances ▸ h)⟩

theorem refl (r : Resolver) : Passing [] [] r r := of_eq rfl rfl

theorem trans (h : Passing a vs r r') (h' : Passing b ws r' r'') : Passing (a ++ b) (vs ++ ws) r r'' := by
  refine ⟨h.scopes.trans h'.scopes, fun id d hd => ?_⟩
  rcases h'.recorded id d hd with hd | ⟨v, hv, hat⟩
  · exact (h.recorded id d hd).imp_right fun ⟨v, hv, hat⟩ => ⟨v, List.mem_append_left _ hv, hat⟩
  · exact .inr ⟨v, List.mem_append_right _ hv, hat⟩

theorem refuse (r : Resolver) (token : Token) (fault : ScopeFault) : Passing [] [] r (r.refuse token fault) := of_eq rfl rfl

theorem checkRead (r : Resolver) (token : Token) : Passing [] [] r (r.checkRead token) := by
  unfold Resolver.checkRead
  split
  · exact refuse r _ _
  · exact refl r

/-- A reference marks the name that it means, and records how far away that is. -/
theorem refer (around : List Initializing) (r : Resolver) (kind : ReferenceKind) (id : NodeId) (token : Token) :
    Passing [] [⟨⟨kind, id, token⟩, r.scopes, around⟩] r (r.refer id token) := by
  unfold Resolver.refer
  split
  · next d hd =>
    refine ⟨.of_kept (kept_modify r.scopes d token.lexeme), fun key found hfound => ?_⟩
    rw [Distances.find?_record] at hfound
    split at hfound
    · next heq =>
      cases hfound
      exact .inr ⟨_, List.mem_singleton_self _, heq, hd, distance?_lt hd⟩
    · exact .inl hfound
  · exact ⟨.refl r.scopes, fun _ _ h => .inl h⟩

theorem read (around : List Initializing) (r : Resolver) (kind : ReferenceKind) (id : NodeId) (token : Token) :
    Passing [] [⟨⟨kind, id, token⟩, r.scopes, around⟩] r ((r.checkRead token).refer id token) := by
  rw [← scopes_checkRead r token]
  exact (checkRead r token).trans (refer around _ kind id token)

/-- A name is declared, and has its value behind what declares nothing in its scope. -/
theorem defineDeclared {name : Token} (h : Passing [] vs (r.declare name) r') :
    Passing [name] vs r (r'.define name) := by
  refine ⟨?_, fun id d hd => ?_⟩
  · have hkept := h.scopes.kept
    rw [scopes_declare] at hkept
    rw [scopes_define]
    cases hr : r.scopes with
    | nil =>
      rw [hr, List.modifyHead_nil, List.forall₂_nil_left_iff] at hkept
      rw [hkept]
      exact .outermost
    | cons scope outer =>
      rw [hr, List.modifyHead_cons, List.forall₂_cons_left_iff] at hkept
      obtain ⟨scope', outer', hscope, houter, heq⟩ := hkept
      rw [heq]
      exact .within (Scope.gains_define hscope) houter
  · rw [(Silent.define r' name).distances] at hd
    rcases h.recorded id d hd with hd | hd
    · exact .inl ((Silent.declare r name).distances ▸ hd)
    · exact .inr hd

theorem introduce (r : Resolver) (name : Token) : Passing [name] [] r (r.introduce name) := defineDeclared (refl _)

/-- The names of a scope that is closed again are of no account outside. -/
theorem closeScope {start : Resolver} {scope : Scope} (h : Passing a vs start r') (r : Resolver)
    (hstart : start.scopes = scope :: r.scopes) (hdistances : start.distances = r.distances) :
    Passing [] vs r r'.closeScope := by
  have hscopes : r'.closeScope.scopes = r'.scopes.tail := by
    unfold Resolver.closeScope
    split
    · next hs => rw [hs]; rfl
    · next hs => rw [hs]; rfl
  refine ⟨?_, fun id d hd => ?_⟩
  · rw [hscopes]
    exact (hstart ▸ h.scopes).tail
  · rw [(Silent.closeScope r').distances] at hd
    exact hdistances ▸ h.recorded id d hd

end Passing

end Resolver

open Resolver

/-! ### Trees -/

theorem Resolver.Passing.introduceAll (params : List Token) (r : Resolver) :
    Passing params [] r (params.foldl Resolver.introduce r) := by
  induction params generalizing r with
  | nil => exact .refl r
  | cons p rest ih => exact (Passing.introduce r p).trans (ih _)

/-- A class behind its superclass: the class declares its name first. -/
theorem Resolver.Passing.superclass {parent : Expr} (around : List Initializing)
    (h : ∀ r : Resolver, Passing [] (parent.visits around r) r (parent.resolve r)) (r : Resolver) (name : Token) :
    Passing [name] (parent.visits around ({ r with inClass := true }.introduce name)) r
      (r.afterSuperclass name (some parent)) := by
  have hentry : Passing [name] [] r ({ r with inClass := true }.introduce name) :=
    ⟨(Passing.introduce { r with inClass := true } name).scopes, (Passing.introduce { r with inClass := true } name).recorded⟩
  unfold afterSuperclass
  dsimp only
  split
  · next id token =>
    split
    · have hread := Passing.read around (({ r with inClass := true }.introduce name).refuse token .inheritsItself) .var id
        token
      exact hentry.trans ((Passing.refuse _ token .inheritsItself).trans hread)
    · exact hentry.trans (h _)
  · exact hentry.trans (h _)

mutual

theorem Expr.passing : ∀ (e : Expr) (around : List Initializing) (r : Resolver),
    Passing [] (e.visits around r) r (e.resolve r)
  | .literal _, _, r => .refl r
  | .array _ _, _, r => .refl r
  | .unary _ right, around, r => right.passing around r
  | .binary left _ right, around, r => (left.passing around r).trans (right.passing around _)
  | .logical left _ right, around, r => (left.passing around r).trans (right.passing around _)
  | .grouping inner, around, r => inner.passing around r
  | .var id name, around, r => .read around r .var id name
  | .global _, _, r => .refl r
  | .assign id name value, around, r => (value.passing around r).trans (.refer around _ .assign id name)
  | .ternary condition _ yes no, around, r =>
    ((condition.passing around r).trans (yes.passing around _)).trans (no.passing around _)
  | .call callee _ arguments, around, r => (callee.passing around r).trans (Expr.allPassing arguments around _)
  | .lambda routine, around, r => routine.passing .function around r
  | .get object _, around, r => object.passing around r
  | .set object _ value, around, r => (value.passing around r).trans (object.passing around _)
  | .this id keyword, around, r => by
    unfold Expr.visits Expr.resolve
    split
    · exact .refer around r .this id keyword
    · exact ⟨.refl r.scopes, fun _ _ h => .inl h⟩
  | .subscript id name index, around, r => (Passing.read around r .index id name).trans (index.passing around _)

theorem Expr.allPassing : ∀ (es : List Expr) (around : List Initializing) (r : Resolver),
    Passing [] (Expr.allVisits around es r) r (Expr.resolveAll es r)
  | [], _, r => .refl r
  | e :: rest, around, r => (e.passing around r).trans (Expr.allPassing rest around _)

theorem Stmt.passing : ∀ (s : Stmt) (around : List Initializing) (r : Resolver),
    Passing s.declares (s.visits around r) r (s.resolve r)
  | .expression value, around, r => value.passing around r
  | .print _ values, around, r => Expr.allPassing values around r
  | .varDecl name none, _, r => .introduce r name
  | .varDecl name (some value), around, r => (value.passing _ (r.declare name)).defineDeclared
  | .block body, around, r =>
    have ⟨_, hbody⟩ := Stmt.allPassing body around r.openScope
    hbody.closeScope r rfl rfl
  | .ifElse condition yes none, around, r => (condition.passing around r).trans (yes.passing around _)
  | .ifElse condition yes (some no), around, r =>
    ((condition.passing around r).trans (yes.passing around _)).trans (no.passing around _)
  | .whileLoop condition body, around, r => by
    have hbody := body.passing around { condition.resolve r with loops := (condition.resolve r).loops + 1 }
    exact (condition.passing around r).trans ⟨hbody.scopes, hbody.recorded⟩
  | .function routine, around, r =>
    (Passing.introduce r routine.name).trans (routine.passing .function around (r.introduce routine.name))
  | .breakLoop keyword, _, r => by
    unfold Stmt.visits Stmt.resolve
    split
    · exact .refuse r _ _
    · exact .refl r
  | .returnValue keyword none, _, r => by
    simp only [Stmt.visits, Stmt.resolve]
    split
    · exact .refuse r _ _
    · exact .refl r
  | .returnValue keyword (some value), around, r => by
    simp only [Stmt.visits, Stmt.resolve]
    split
    · exact (Passing.refuse r _ _).trans (value.passing around _)
    · exact value.passing around r
  | .classDecl name none methods, around, r => by
    have hhead : Passing [name] [] r (r.afterSuperclass name none) :=
      ⟨(Passing.introduce { r with inClass := true } name).scopes, (Passing.introduce { r with inClass := true } name).recorded⟩
    have hmethods := (Routine.methodPassing methods around ((r.afterSuperclass name none).openReceiver name)).closeScope
      (r.afterSuperclass name none) rfl rfl
    exact hhead.trans ⟨hmethods.scopes, hmethods.recorded⟩
  | .classDecl name (some parent) methods, around, r => by
    have hhead := Passing.superclass around (parent.passing around) r name
    have hmethods := (Routine.methodPassing methods around
      ((r.afterSuperclass name (some parent)).openReceiver name)).closeScope (r.afterSuperclass name (some parent)) rfl rfl
    exact hhead.trans ⟨hmethods.scopes, hmethods.recorded⟩
  | .useLibrary _ _, _, r => .refl r

theorem Stmt.allPassing : ∀ (body : List Stmt) (around : List Initializing) (r : Resolver),
    ∃ declared, Passing declared (Stmt.allVisits around body r) r (Stmt.resolveAll body r)
  | [], _, r => ⟨[], .refl r⟩
  | s :: rest, around, r =>
    have ⟨_, hrest⟩ := Stmt.allPassing rest around (s.resolve r)
    ⟨_, (s.passing around r).trans hrest⟩

theorem Routine.passing (kind : Enclosing) : ∀ (routine : Routine) (around : List Initializing) (r : Resolver),
    Passing [] (routine.visits around kind r) r (routine.resolve kind r)
  | ⟨_, params, body⟩, around, r => by
    have ⟨_, hbody⟩ := Stmt.allPassing body around (r.enter kind params)
    have hstart := Passing.introduceAll params { r with enclosing := kind, loops := 0 }.openScope
    have hall := (hstart.trans hbody).closeScope r rfl rfl
    exact ⟨hall.scopes, hall.recorded⟩

theorem Routine.methodPassing : ∀ (methods : List Routine) (around : List Initializing) (r : Resolver),
    Passing [] (Routine.methodVisits around methods r) r (Routine.resolveMethods methods r)
  | [], _, r => .refl r
  | m :: rest, around, r => (m.passing _ around r).trans (Routine.methodPassing rest around _)

end

/-! ### Scopes in which all names have their values -/

/-- All names of the innermost scope have their values. -/
def Resolver.Settled (r : Resolver) : Prop := ∀ scope ∈ r.scopes.head?, ∀ entry ∈ scope, entry.defined = true

namespace Resolver

variable {a : List Token} {vs : List Visit} {r r' : Resolver}

theorem settled_openScope (r : Resolver) : r.openScope.Settled := by
  rintro _ ⟨⟩
  exact nofun

/-- Behind a tree the names of the innermost scope have their values, if they had them before it. -/
theorem Passing.settled (h : Passing a vs r r') (hr : r.Settled) : r'.Settled := by
  have hscopes := h.scopes
  unfold Settled at hr ⊢
  generalize r.scopes = scopes at hscopes hr
  generalize r'.scopes = scopes' at hscopes
  cases hscopes with
  | outermost => exact nofun
  | within hgains _ =>
    rintro _ ⟨⟩
    exact hgains.entries.defined (hr _ rfl)

theorem settled_enter (r : Resolver) (kind : Enclosing) (params : List Token) : (r.enter kind params).Settled :=
  (Passing.introduceAll params _).settled (settled_openScope _)

end Resolver

end Treewalk
