import Treewalk.Proofs.Grammar.Forms
import Treewalk.Proofs.Machine.Loop

/-!
Loops with three clauses as they are read. Behind the keyword stand the clauses, of which each may be missing, and the
body, which is a statement that declares nothing. What is read is the tree that stands for them.
-/

namespace Treewalk.Grammar

open Production

instance : LawfulMonad Production := by
  refine LawfulMonad.mk' Production (fun p => ?_) (fun _ _ => rfl) (fun p f g => ?_)
  · funext c
    show Production.bind p Production.pure c = p c
    unfold Production.bind
    cases p c <;> rfl
  · funext c
    show Production.bind (Production.bind p f) g c = Production.bind p (fun a => Production.bind (f a) g) c
    unfold Production.bind
    cases p c <;> rfl

theorem declared?_loopTree (initializer : Option Stmt) (condition : Expr) (increment : Option Expr) (body : Stmt) :
    (loopTree initializer condition increment body).declared? = none := by
  cases initializer with
  | none => rfl
  | some s => rfl

/-- What is read as a statement declares nothing. -/
theorem builds_plain (rules : Rules) : Builds (fun s => s.declared? = none) (statement rules) := by
  refine .after fun x => ?_
  split
  · exact .after fun _ => .after fun _ => .after fun _ => .after fun _ => .after fun _ => .after fun _ =>
      .after fun _ => .pure (declared?_loopTree ..)
  refine .after fun x => ?_
  split
  · refine .after fun _ => .after fun _ => .after fun _ => .after fun _ => .after fun x => ?_
    split
    · exact .after fun _ => .pure rfl
    · exact .pure rfl
  refine .after fun x => ?_
  split
  · exact .after fun _ => .after fun _ => .after fun _ => .after fun _ => .pure rfl
  refine .after fun x => ?_
  split
  · exact .after fun _ => .pure rfl
  refine .after fun x => ?_
  split
  · exact .after fun _ => .after fun _ => .pure rfl
  refine .after fun x => ?_
  split
  · exact .after fun _ => .pure rfl
  refine .after fun x => ?_
  split
  · exact .after fun _ => .after fun _ => .after fun _ => .pure rfl
  · exact .after fun _ => .after fun _ => .pure rfl

/-- The clauses and the body of a loop behind its keyword. -/
def forClauses (rules : Rules) : Production ForLoop := do
  discard <| expect .leftParen .forClauses
  let initializer ← loopInitializer rules
  let condition ← expressionUnless rules .semicolon
  discard <| expect .semicolon .loopConditionEnd
  let increment ← expressionUnless rules .rightParen
  discard <| expect .rightParen .forClausesEnd
  let body ← (rules .statement : Production Stmt)
  return ⟨initializer, condition, increment, body⟩

/-- What is read of a loop is the tree that stands for it. -/
theorem forStatement_eq (rules : Rules) : forStatement rules = ForLoop.tree <$> forClauses rules := by
  unfold forStatement forClauses
  simp only [map_bind, map_pure]
  rfl

/-- The body of a loop declares nothing. -/
theorem builds_forClauses (depth : Nat) :
    Builds (fun loop => loop.body.declared? = none) (forClauses (produce depth)) := by
  have hbody : Builds (fun s : Stmt => s.declared? = none) (produce depth .statement) := by
    cases depth with
    | zero => exact fun _ _ _ h => by cases h
    | succ depth => exact builds_plain (produce depth)
  exact .after fun _ => .after fun _ => .after fun _ => .after fun _ => .after fun _ => .after fun _ =>
    hbody.bind fun body hplain => .pure (show (ForLoop.mk _ _ _ body).body.declared? = none from hplain)

end Treewalk.Grammar
