import Treewalk.Proofs.Scope.Jumps
import Treewalk.Proofs.Scope.Passing
import Treewalk.Proofs.Scope.Relabeling

/-!
Programs checked one behind the other. Behind a program the check is where it was at the start: in no scope, body, class
or loop. So two programs checked as one come to the findings of both, and to the same distances.
-/

namespace Treewalk

theorem Stmt.resolveAll_append (xs ys : List Stmt) (r : Resolver) :
    Stmt.resolveAll (xs ++ ys) r = Stmt.resolveAll ys (Stmt.resolveAll xs r) := by
  induction xs generalizing r with
  | nil => rfl
  | cons x xs ih => exact ih (x.resolve r)

/-- A later place in the source keeps the order of tokens. -/
theorem Relabeling.ordered_shift (nodes lines bytes : Nat) : (Relabeling.shift nodes lines bytes).Ordered := by
  intro a b
  have hline : (a.line + lines == b.line + lines) = (a.line == b.line) := by
    rw [Bool.eq_iff_iff, beq_iff_eq, beq_iff_eq, Nat.add_right_cancel_iff]
  simp [Scope.before, Token.relabel, Relabeling.shift, hline]

/-- Two programs, of which the second one stands at a later place, checked as one: to the findings in the first one come
those in the second one, and the distances are those of checking one and then the other. -/
theorem Stmt.check_append (distances : Distances) (xs ys : List Stmt) (lines bytes : Nat) :
    (Stmt.check (Stmt.check distances xs).distances ys).Twin (.shift 0 lines bytes) Eq (Stmt.check distances xs).findings
      (Stmt.check distances (xs ++ Stmt.relabelAll (.shift 0 lines bytes) ys)) := by
  have hlevel : Resolver.Level { distances } (Stmt.check distances xs) := Stmt.allLevel xs _
  obtain ⟨_, hpassing⟩ := Stmt.allPassing xs [] { distances }
  have hscopes : (Stmt.check distances xs).scopes = [] := List.length_eq_zero_iff.mp hpassing.scopes.length_eq
  have hrecords : (Relabeling.shift 0 lines bytes).Records Eq := fun d d' id n h => by
    rw [h]
    rfl
  have happend : Stmt.check distances (xs ++ Stmt.relabelAll (.shift 0 lines bytes) ys)
      = Stmt.resolveAll (Stmt.relabelAll (.shift 0 lines bytes) ys) (Stmt.check distances xs) :=
    Stmt.resolveAll_append ..
  rw [happend]
  refine Stmt.resolveAll_twin (Relabeling.ordered_shift 0 lines bytes) hrecords ys ?_
  exact ⟨hscopes, hlevel.enclosing, hlevel.inClass, hlevel.loops, (List.append_nil _).symm, rfl⟩

/-- Two programs without a fault have none as one. -/
theorem Stmt.clean_append {distances : Distances} {xs ys : List Stmt} (hxs : (Stmt.check distances xs).Clean)
    (hys : (Stmt.check (Stmt.check distances xs).distances ys).Clean) (lines bytes : Nat) :
    (Stmt.check distances (xs ++ Stmt.relabelAll (.shift 0 lines bytes) ys)).Clean := by
  intro token cause hmem
  rw [(Stmt.check_append distances xs ys lines bytes).findings] at hmem
  rcases List.mem_append.mp hmem with hmem | hmem
  · exact hxs token cause hmem
  · obtain ⟨x, hx, heq⟩ := List.mem_map.mp hmem
    cases x with
    | fault token' cause' => exact hys token' cause' hx
    | unused token' => cases heq

end Treewalk
