import Treewalk.Machine.Interpretation

/-!
Steps only decide whether a run ends. With more of them every run that ended before ends in the same way; only one that
was suspended can go on.
-/

namespace Treewalk

/-- The second run comes to what the first one comes to, unless that one is suspended. -/
def Run.Completes {α : Type} (r r' : Run α) : Prop :=
  ∀ m, (∃ m', r m = .stopped .suspended m') ∨ r' m = r m

/-- The second way to do tasks completes the first one. -/
def Performer.Completes (p p' : Performer) : Prop :=
  ∀ task, Run.Completes (p task) (p' task)

/-! ### Elementary runs -/

namespace Run.Completes

variable {α β : Type} {r r' : Run α}

theorem refl (r : Run α) : r.Completes r := fun _ => Or.inr rfl

theorem suspended (r : Run α) : Run.Completes (Run.stop .suspended) r := fun m => Or.inl ⟨m, rfl⟩

theorem bind {k k' : α → Run β} (h : r.Completes r') (hk : ∀ a, (k a).Completes (k' a)) :
    (r >>= k).Completes (r' >>= k') := by
  intro m
  show (∃ m', Run.bind r k m = _) ∨ Run.bind r' k' m = Run.bind r k m
  unfold Run.bind
  rcases h m with ⟨m', hm⟩ | hm
  · rw [hm]
    exact Or.inl ⟨m', rfl⟩
  · rw [hm]
    cases r m with
    | done a m' => exact hk a m'
    | stopped s m' => exact Or.inr rfl

theorem map (h : r.Completes r') (k : α → β) : (k <$> r).Completes (k <$> r') := h.bind fun _ => refl _

theorem discard (h : r.Completes r') : Run.Completes (Functor.discard r) (Functor.discard r') := h.map _

theorem inFrame (h : r.Completes r') (frame : FrameId) : (Run.inFrame frame r).Completes (Run.inFrame frame r') := by
  intro m
  unfold Run.inFrame
  rcases h { m with frame } with ⟨m', hm⟩ | hm
  · exact Or.inl ⟨{ m' with frame := m.frame }, by simp only [hm]⟩
  · exact Or.inr (by simp only [hm])

theorem nested (h : r.Completes r') (line : Nat) : (Run.nested line r).Completes (Run.nested line r') := by
  intro m
  unfold Run.nested
  split
  · exact Or.inr rfl
  · rcases h { m with depth := m.depth + 1 } with ⟨m', hm⟩ | hm
    · exact Or.inl ⟨{ m' with depth := m'.depth - 1 }, by simp only [hm]⟩
    · exact Or.inr (by simp only [hm])

theorem repeatWhile {test test' : Run Bool} {body body' : Run Unit} (ht : test.Completes test')
    (hb : body.Completes body') {rounds rounds' : Nat} (h : rounds ≤ rounds') :
    (Run.repeatWhile test body rounds).Completes (Run.repeatWhile test' body' rounds') := by
  induction rounds generalizing rounds' with
  | zero => exact suspended _
  | succ rounds ih =>
    obtain ⟨rounds', rfl⟩ : ∃ n, rounds' = n + 1 := Nat.exists_eq_add_one.mpr (Nat.lt_of_lt_of_le (Nat.succ_pos _) h)
    intro m
    unfold Run.repeatWhile
    rcases ht m with ⟨m', hm⟩ | hm
    · rw [hm]
      exact Or.inl ⟨m', rfl⟩
    · rw [hm]
      cases test m with
      | stopped s m' => exact Or.inr rfl
      | done again m' =>
        cases again with
        | false => exact Or.inr rfl
        | true =>
          dsimp only
          rcases hb m' with ⟨m'', hm'⟩ | hm'
          · rw [hm']
            exact Or.inl ⟨m'', rfl⟩
          · rw [hm']
            cases body m' with
            | done _ m'' => exact ih (Nat.le_of_succ_le_succ h) m''
            | stopped s m'' => cases s <;> exact Or.inr rfl

end Run.Completes

/-! ### Expressions, statements and calls -/

namespace Evaluation

variable {p p' : Performer} (hp : p.Completes p')
include hp

theorem completes_evaluateAll (es : List Expr) : (evaluateAll p es).Completes (evaluateAll p' es) := by
  induction es with
  | nil => exact .refl _
  | cons e rest ih => exact (hp (.evaluate e)).bind fun _ => ih.bind fun _ => .refl _

theorem completes_executeAll (body : List Stmt) : (executeAll p body).Completes (executeAll p' body) := by
  induction body with
  | nil => exact .refl _
  | cons s rest ih =>
    intro m
    unfold executeAll
    rcases hp (.execute s) m with ⟨m', hm⟩ | hm
    · exact Or.inl ⟨m', by simp only [execute, hm]⟩
    · simp only [execute, hm]
      cases p (.execute s) m with
      | done _ m' => exact ih m'
      | stopped signal m' => exact Or.inr rfl

theorem completes_evaluation (e : Expr) : (evaluation p e).Completes (evaluation p' e) := by
  have hevaluate (e : Expr) : (evaluate p e).Completes (evaluate p' e) := hp (.evaluate e)
  cases e with
  | literal value => exact .refl _
  | array bracket items => exact .refl _
  | grouping inner => exact hevaluate inner
  | unary operator right => exact (hevaluate right).bind fun _ => .refl _
  | binary left operator right => exact (hevaluate left).bind fun _ => (hevaluate right).bind fun _ => .refl _
  | logical left operator right =>
    refine (hevaluate left).bind fun a => ?_
    split
    · exact .refl _
    · exact hevaluate right
  | ternary condition question yes no =>
    refine (hevaluate condition).bind fun c => ?_
    split
    · exact hevaluate yes
    · exact hevaluate no
  | var id name => exact .refl _
  | this id keyword => exact .refl _
  | global name => exact .refl _
  | assign id name value => exact (hevaluate value).bind fun _ => .refl _
  | call callee paren arguments =>
    exact (hevaluate callee).bind fun f => (completes_evaluateAll hp arguments).bind fun values =>
      hp (.invoke f values paren.line)
  | lambda routine => exact .refl _
  | get object name => exact (hevaluate object).bind fun _ => .refl _
  | set object name value =>
    refine (hevaluate object).bind fun v => ?_
    cases v with
    | object id => exact (hevaluate value).bind fun _ => .refl _
    | _ => exact .refl _
  | subscript id name index => exact (Run.Completes.refl _).bind fun _ => (hevaluate index).bind fun _ => .refl _

theorem completes_classDeclaration (name : Token) (superclass : Option Expr) (methods : List Routine) :
    (classDeclaration p name superclass methods).Completes (classDeclaration p' name superclass methods) := by
  have hparent : (superclassOf p name superclass).Completes (superclassOf p' name superclass) := by
    cases superclass with
    | none => exact .refl _
    | some e => exact Run.Completes.bind (hp (.evaluate e)) fun _ => .refl _
  exact hparent.bind fun _ => .refl _

theorem completes_block (body : List Stmt) : (block p body).Completes (block p' body) :=
  (Run.Completes.refl _).bind fun _ => (Run.Completes.refl _).bind fun inner =>
    (completes_executeAll hp body).inFrame inner

theorem completes_execution {rounds rounds' : Nat} (h : rounds ≤ rounds') (s : Stmt) :
    (execution p rounds s).Completes (execution p' rounds' s) := by
  have hevaluate (e : Expr) : (evaluate p e).Completes (evaluate p' e) := hp (.evaluate e)
  have hexecute (s : Stmt) : (execute p s).Completes (execute p' s) := hp (.execute s)
  cases s with
  | expression value => exact (hevaluate value).discard
  | print keyword values => exact (completes_evaluateAll hp values).bind fun _ => .refl _
  | varDecl name initializer =>
    cases initializer with
    | none => exact .refl _
    | some value => exact (hevaluate value).bind fun _ => .refl _
  | block body => exact completes_block hp body
  | ifElse condition yes no =>
    refine (hevaluate condition).bind fun c => ?_
    split
    · exact hexecute yes
    · cases no with
      | none => exact .refl _
      | some no => exact hexecute no
  | whileLoop condition body => exact .repeatWhile ((hevaluate condition).map _) (hexecute body) h
  | function routine => exact .refl _
  | breakLoop keyword => exact .refl _
  | returnValue keyword value =>
    cases value with
    | none => exact .refl _
    | some value => exact (hevaluate value).bind fun _ => .refl _
  | classDecl name superclass methods => exact completes_classDeclaration hp name superclass methods
  | useLibrary keyword path => exact .refl _

omit hp in
theorem completes_result (f : Closure) {body body' : Run Unit} (h : body.Completes body') :
    (result f body).Completes (result f body') := by
  intro m
  unfold result
  rcases h m with ⟨m', hm⟩ | hm
  · exact Or.inl ⟨m', by simp only [hm]⟩
  · exact Or.inr (by simp only [hm])

theorem completes_apply (f : Closure) (arguments : List Value) : (apply p f arguments).Completes (apply p' f arguments) :=
  (Run.Completes.refl _).bind fun frame => completes_result f ((completes_executeAll hp f.routine.body).inFrame frame)

theorem completes_instantiate (classId : ClassId) (arguments : List Value) (line : Nat) :
    (instantiate p classId arguments line).Completes (instantiate p' classId arguments line) := by
  refine (Run.Completes.refl _).bind fun id => (Run.Completes.refl _).bind fun method => ?_
  cases method with
  | none => exact .refl _
  | some method =>
    exact (Run.Completes.refl _).bind fun bound =>
      ((completes_apply hp bound arguments).nested line).discard.bind fun _ => .refl _

theorem completes_invocation (callee : Value) (arguments : List Value) (line : Nat) :
    (invocation p callee arguments line).Completes (invocation p' callee arguments line) := by
  cases callee with
  | closure id =>
    refine (Run.Completes.refl _).bind fun c => ?_
    cases c with
    | none => exact .refl _
    | some f =>
      dsimp only
      split
      · exact (completes_apply hp f arguments).nested line
      · exact .refl _
  | classValue id =>
    refine (Run.Completes.refl _).bind fun arity => ?_
    split
    · exact completes_instantiate hp id arguments line
    · exact .refl _
  | _ => exact .refl _

theorem completes_performOver {rounds rounds' : Nat} (h : rounds ≤ rounds') :
    (performOver p rounds).Completes (performOver p' rounds')
  | .evaluate e => completes_evaluation hp e
  | .execute s => completes_execution hp h s
  | .invoke callee arguments line => completes_invocation hp callee arguments line

end Evaluation

/-! ### Whole programs -/

theorem completes_perform {steps steps' : Nat} (h : steps ≤ steps') : (perform steps).Completes (perform steps') := by
  induction steps generalizing steps' with
  | zero => exact fun _ => .suspended _
  | succ steps ih =>
    obtain ⟨steps', rfl⟩ : ∃ n, steps' = n + 1 := Nat.exists_eq_add_one.mpr (Nat.lt_of_lt_of_le (Nat.succ_pos _) h)
    have hle : steps ≤ steps' := Nat.le_of_succ_le_succ h
    exact Evaluation.completes_performOver (ih hle) hle

/-- With more steps a program that was not suspended ends as before. -/
theorem Machine.interpret_of_le {steps steps' : Nat} (h : steps ≤ steps') (body : List Stmt) (m : Machine)
    (hended : (interpret steps body m).1 ≠ .suspended) : interpret steps' body m = interpret steps body m := by
  induction body generalizing m with
  | nil => rfl
  | cons s rest ih =>
    rw [interpret] at hended
    rw [interpret, interpret]
    rcases completes_perform h (.execute s) m with ⟨m', hm⟩ | hm
    · rw [hm] at hended
      exact absurd rfl hended
    · rw [hm]
      cases hs : perform steps (.execute s) m with
      | done _ m' =>
        rw [hs] at hended
        exact ih m' hended
      | stopped signal m' =>
        rw [hs] at hended
        cases signal with
        | failed e => rfl
        | suspended => rfl
        | returned value => exact ih m' hended
        | broke => exact ih m' hended

end Treewalk
