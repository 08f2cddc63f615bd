import Treewalk.Proofs.Scope.Visits

/-!
Breaks and returns, and where the check lets them stand. The check comes out of every phrase in the context in which it
went into it: the same enclosing body and class, and as many loops. So a program without a fault has no break that is
outside of a loop in its body, and no return outside of all bodies.
-/

namespace Treewalk

namespace Resolver

/-- The check is in the same context again, and no finding was taken back. -/
structure Level (r r' : Resolver) : Prop where
  enclosing : r'.enclosing = r.enclosing
  inClass : r'.inClass = r.inClass
  loops : r'.loops = r.loops
  findings : r.findings <+: r'.findings

namespace Level

variable {r r' r'' : Resolver}

theorem refl (r : Resolver) : Level r r := ⟨rfl, rfl, rfl, List.prefix_refl _⟩

theorem trans (h : Level r r') (h' : Level r' r'') : Level r r'' :=
  ⟨h'.enclosing.trans h.enclosing, h'.inClass.trans h.inClass, h'.loops.trans h.loops, h.findings.trans h'.findings⟩

theorem refuse (r : Resolver) (token : Token) (fault : ScopeFault) : Level r (r.refuse token fault) :=
  ⟨rfl, rfl, rfl, List.prefix_append _ _⟩

theorem closeScope (r : Resolver) : Level r r.closeScope := by
  unfold Resolver.closeScope
  split
  · exact refl r
  · exact ⟨rfl, rfl, rfl, List.prefix_append _ _⟩

theorem declare (r : Resolver) (token : Token) : Level r (r.declare token) := by
  unfold Resolver.declare
  split
  · exact refl r
  · split
    · exact refuse r _ _
    · exact ⟨rfl, rfl, rfl, List.prefix_refl _⟩

theorem define (r : Resolver) (token : Token) : Level r (r.define token) := by
  unfold Resolver.define
  split
  · exact refl r
  · exact ⟨rfl, rfl, rfl, List.prefix_refl _⟩

theorem introduce (r : Resolver) (token : Token) : Level r (r.introduce token) :=
  (declare r token).trans (define _ token)

theorem introduceAll (params : List Token) (r : Resolver) : Level r (params.foldl Resolver.introduce r) := by
  induction params generalizing r with
  | nil => exact refl r
  | cons p rest ih => exact (introduce r p).trans (ih _)

theorem checkRead (r : Resolver) (token : Token) : Level r (r.checkRead token) := by
  unfold Resolver.checkRead
  split
  · exact refuse r _ _
  · exact refl r

theorem refer (r : Resolver) (id : NodeId) (token : Token) : Level r (r.refer id token) := by
  unfold Resolver.refer
  split <;> exact ⟨rfl, rfl, rfl, List.prefix_refl _⟩

theorem ofParent (r : Resolver) (name : Token) (parent : Expr) :
    Level r (match parent with
      | .var _ token => if token.lexeme == name.lexeme then r.refuse token .inheritsItself else r
      | _ => r) := by
  split
  · split
    · exact refuse r _ _
    · exact refl r
  · exact refl r

/-- Behind its methods a class is closed, and the context is that around the class. -/
theorem ofClass {name : Token} (hhead : Level { r with inClass := true } r') (hmethods : Level (r'.openReceiver name) r'') :
    Level r { r''.closeScope with inClass := r.inClass } := by
  have hclose := closeScope r''
  exact ⟨(hclose.enclosing.trans hmethods.enclosing).trans hhead.enclosing, rfl,
    (hclose.loops.trans hmethods.loops).trans hhead.loops,
    (hhead.findings.trans hmethods.findings).trans hclose.findings⟩

end Level

end Resolver

open Resolver

mutual

theorem Expr.level : ∀ (e : Expr) (r : Resolver), Level r (e.resolve r)
  | .literal _, r => Level.refl r
  | .array _ _, r => Level.refl r
  | .unary _ right, r => right.level r
  | .binary left _ right, r => (left.level r).trans (right.level _)
  | .logical left _ right, r => (left.level r).trans (right.level _)
  | .grouping inner, r => inner.level r
  | .var id name, r => (Level.checkRead r name).trans (Level.refer _ id name)
  | .global _, r => Level.refl r
  | .assign id name value, r => (value.level r).trans (Level.refer _ id name)
  | .ternary condition _ yes no, r => ((condition.level r).trans (yes.level _)).trans (no.level _)
  | .call callee _ arguments, r => (callee.level r).trans (Expr.allLevel arguments _)
  | .lambda routine, r => routine.level .function r
  | .get object _, r => object.level r
  | .set object _ value, r => (value.level r).trans (object.level _)
  | .this id keyword, r => by
    unfold Expr.resolve
    split
    · exact Level.refer r id keyword
    · exact Level.refuse r _ _
  | .subscript id name index, r => ((Level.checkRead r name).trans (Level.refer _ id name)).trans (index.level _)

theorem Expr.allLevel : ∀ (es : List Expr) (r : Resolver), Level r (Expr.resolveAll es r)
  | [], r => Level.refl r
  | e :: rest, r => (e.level r).trans (Expr.allLevel rest _)

theorem Stmt.level : ∀ (s : Stmt) (r : Resolver), Level r (s.resolve r)
  | .expression value, r => value.level r
  | .print _ values, r => Expr.allLevel values r
  | .varDecl name none, r => Level.introduce r name
  | .varDecl name (some value), r => ((Level.declare r name).trans (value.level _)).trans (Level.define _ name)
  | .block body, r => by
    have hbody := Stmt.allLevel body r.openScope
    have hopen : Level r r.openScope := ⟨rfl, rfl, rfl, List.prefix_refl _⟩
    exact (hopen.trans hbody).trans (Level.closeScope _)
  | .ifElse condition yes none, r => (condition.level r).trans (yes.level _)
  | .ifElse condition yes (some no), r => ((condition.level r).trans (yes.level _)).trans (no.level _)
  | .whileLoop condition body, r => by
    have hcondition := condition.level r
    have hbody := body.level { condition.resolve r with loops := (condition.resolve r).loops + 1 }
    refine ⟨hbody.enclosing.trans hcondition.enclosing, hbody.inClass.trans hcondition.inClass, ?_,
      hcondition.findings.trans hbody.findings⟩
    exact (congrArg (· - 1) hbody.loops).trans hcondition.loops
  | .function routine, r => (Level.introduce r routine.name).trans (routine.level .function _)
  | .breakLoop keyword, r => by
    unfold Stmt.resolve
    split
    · exact Level.refuse r _ _
    · exact Level.refl r
  | .returnValue keyword none, r => by
    simp only [Stmt.resolve]
    split
    · exact Level.refuse r _ _
    · exact Level.refl r
  | .returnValue keyword (some value), r => by
    simp only [Stmt.resolve]
    split
    · exact (Level.refuse r _ _).trans (value.level _)
    · exact value.level r
  | .classDecl name none methods, r =>
    Level.ofClass (Level.introduce { r with inClass := true } name)
      (Routine.methodLevel methods ((r.afterSuperclass name none).openReceiver name))
  | .classDecl name (some parent) methods, r =>
    Level.ofClass ((Level.introduce { r with inClass := true } name).trans
        ((Level.ofParent _ name parent).trans (parent.level _)))
      (Routine.methodLevel methods ((r.afterSuperclass name (some parent)).openReceiver name))
  | .useLibrary _ _, r => Level.refl r

theorem Stmt.allLevel : ∀ (body : List Stmt) (r : Resolver), Level r (Stmt.resolveAll body r)
  | [], r => Level.refl r
  | s :: rest, r => (s.level r).trans (Stmt.allLevel rest _)

theorem Routine.level (kind : Enclosing) : ∀ (routine : Routine) (r : Resolver), Level r (routine.resolve kind r)
  | ⟨_, params, body⟩, r => by
    have hbody := Stmt.allLevel body (r.enter kind params)
    have henter := Level.introduceAll params { r with enclosing := kind, loops := 0 }.openScope
    have hclose := Level.closeScope (Stmt.resolveAll body (r.enter kind params))
    exact ⟨rfl, (hclose.inClass.trans hbody.inClass).trans henter.inClass, rfl,
      (henter.findings.trans hbody.findings).trans hclose.findings⟩

theorem Routine.methodLevel : ∀ (methods : List Routine) (r : Resolver), Level r (Routine.resolveMethods methods r)
  | [], r => Level.refl r
  | m :: rest, r => (m.level _ r).trans (Routine.methodLevel rest _)

end

/-! ### Jumps -/

/-- What a statement can leave: the loop or the body around it. -/
inductive Jump where
  | loop
  | body
deriving DecidableEq, Repr

mutual

/-- The statements within a statement that leave the loop or the body around it. -/
def Stmt.jumps (jump : Jump) : Stmt → List Token
  | .breakLoop keyword => if jump = .loop then [keyword] else []
  | .returnValue keyword _ => if jump = .body then [keyword] else []
  | .block body => Stmt.allJumps jump body
  | .ifElse _ yes none => yes.jumps jump
  | .ifElse _ yes (some no) => yes.jumps jump ++ no.jumps jump
  | .whileLoop _ body => if jump = .body then body.jumps jump else []
  | _ => []

/-- The statements within statements that leave the loop or the body around them. -/
def Stmt.allJumps (jump : Jump) : List Stmt → List Token
  | [] => []
  | s :: rest => s.jumps jump ++ Stmt.allJumps jump rest

end

/-- Where the check is, there is nothing to leave. -/
def Resolver.Confines (r : Resolver) : Jump → Prop
  | .loop => r.loops = 0
  | .body => r.enclosing = .none

theorem Resolver.Level.confines {r r' : Resolver} (h : Level r r') {jump : Jump} (hr : r.Confines jump) :
    r'.Confines jump := by
  cases jump with
  | loop => exact h.loops.trans hr
  | body => exact h.enclosing.trans hr

theorem Resolver.Clean.not_refuse {r r' : Resolver} {token : Token} {fault : ScopeFault} (h : r'.Clean)
    (hlevel : Level (r.refuse token fault) r') : False :=
  h.of_findings hlevel.findings token fault (List.mem_append_right _ (List.mem_singleton_self _))

theorem Stmt.allJumps_eq_nil_iff {jump : Jump} {body : List Stmt} :
    Stmt.allJumps jump body = [] ↔ ∀ s ∈ body, s.jumps jump = [] := by
  induction body with
  | nil => simp [Stmt.allJumps]
  | cons s rest ih => simp [Stmt.allJumps, ih]

mutual

/-- A statement without a fault, where there is nothing to leave, leaves nothing. -/
theorem Stmt.jumps_eq_nil {jump : Jump} : ∀ {s : Stmt} {r : Resolver}, (s.resolve r).Clean → r.Confines jump →
    s.jumps jump = []
  | .breakLoop keyword, r, hclean, hr => by
    cases jump with
    | body => rfl
    | loop =>
      simp only [Stmt.resolve, if_pos (show r.loops = 0 from hr)] at hclean
      exact (hclean.not_refuse (Level.refl _)).elim
  | .returnValue keyword value, r, hclean, hr => by
    cases jump with
    | loop => rfl
    | body =>
      have henclosing : r.enclosing = .none := hr
      have hlevel : Level (r.refuse keyword .returnOutsideFunction) ((Stmt.returnValue keyword value).resolve r) := by
        cases value with
        | none =>
          rw [Stmt.resolve, if_pos henclosing]
          exact Level.refl _
        | some value =>
          rw [Stmt.resolve, if_pos henclosing]
          exact value.level _
      exact (hclean.not_refuse hlevel).elim
  | .block body, r, hclean, hr => by
    have hbody : (Stmt.resolveAll body r.openScope).Clean := Clean.of_findings hclean (Level.closeScope _).findings
    have hopen : r.openScope.Confines jump := by cases jump <;> exact hr
    exact Stmt.allJumps_eq_nil hbody hopen
  | .ifElse condition yes none, r, hclean, hr => Stmt.jumps_eq_nil (s := yes) hclean ((condition.level r).confines hr)
  | .ifElse condition yes (some no), r, hclean, hr => by
    have hcondition := (condition.level r).confines hr
    have hyes := Stmt.jumps_eq_nil (s := yes) (hclean.of_findings (no.level _).findings) hcondition
    have hno := Stmt.jumps_eq_nil (s := no) hclean ((yes.level _).confines hcondition)
    rw [Stmt.jumps, hyes, hno]
    rfl
  | .whileLoop condition body, r, hclean, hr => by
    cases jump with
    | loop => rfl
    | body =>
      have hcondition := (condition.level r).confines hr
      have hinner : Resolver.Confines { condition.resolve r with loops := (condition.resolve r).loops + 1 } .body :=
        hcondition
      exact Stmt.jumps_eq_nil (s := body) hclean hinner
  | .expression _, _, _, _ => rfl
  | .print _ _, _, _, _ => rfl
  | .varDecl _ _, _, _, _ => rfl
  | .function _, _, _, _ => rfl
  | .classDecl _ _ _, _, _, _ => rfl
  | .useLibrary _ _, _, _, _ => rfl

theorem Stmt.allJumps_eq_nil {jump : Jump} : ∀ {body : List Stmt} {r : Resolver}, (Stmt.resolveAll body r).Clean →
    r.Confines jump → Stmt.allJumps jump body = []
  | [], _, _, _ => rfl
  | s :: rest, r, hclean, hr => by
    have hs := Stmt.jumps_eq_nil (s := s) (hclean.of_findings (Stmt.allLevel rest _).findings) hr
    have hrest : Stmt.allJumps jump rest = [] := Stmt.allJumps_eq_nil hclean ((s.level r).confines hr)
    rw [Stmt.allJumps, hs, hrest]
    rfl

end

/-- In the body of a routine there is no loop to leave at first. -/
theorem Routine.allJumps_eq_nil {kind : Enclosing} {routine : Routine} {r : Resolver}
    (h : (routine.resolve kind r).Clean) : Stmt.allJumps .loop routine.body = [] := by
  obtain ⟨name, params, body⟩ := routine
  have hbody : (Stmt.resolveAll body (r.enter kind params)).Clean :=
    Clean.of_findings h (Level.closeScope _).findings
  have hopen : Resolver.Confines { r with enclosing := kind, loops := 0 }.openScope .loop := rfl
  exact Stmt.allJumps_eq_nil hbody ((Level.introduceAll params _).confines hopen)

end Treewalk
