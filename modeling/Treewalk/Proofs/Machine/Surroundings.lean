import Treewalk.Proofs.Machine.Activities

/-!
Relations between machines in which the heap, the frame, the number of running calls and the sink have no part, such as
that of a growing list of notices. What every move of a task keeps of them, whole tasks, stacks of activities and
programs keep, and in their order: from the beginning of an activity to that of each one it asks for, and from the end of
that one to its own.
-/

namespace Treewalk

/-- A relation that every task keeps and that has no eye for the heap, the frame, the running calls and the sink. -/
class Ambient (R : Machine → Machine → Prop) : Prop extends Lasting R where
  moves : ∀ {task m m'}, Task.Moves task m m' → R m m'
  aside : ∀ (m : Machine) heap frame depth sink, R m { m with heap, frame, depth, sink }

instance {R : Machine → Machine → Prop} [Ambient R] : Stepwise R where
  moves := Ambient.moves
  block m := Ambient.aside m m.inBlock.heap m.inBlock.frame m.depth m.sink
  entry {m _ _ _} he := by
    obtain ⟨heap, heq⟩ := Machine.entered?_heap he
    rw [heq]
    exact Ambient.aside m heap m.frame m.depth m.sink
  inside e arguments :=
    Ambient.aside e.machine (e.inside arguments).heap (e.inside arguments).frame (e.inside arguments).depth e.machine.sink
  aside m frame depth := Ambient.aside m m.heap frame depth m.sink
  flush m := Ambient.aside m m.heap m.frame m.depth m.sink.flush.1
  copy {m id classId} := Ambient.aside m (m.copyLineage id classId).heap m.frame m.depth m.sink

section
variable {R : Machine → Machine → Prop} [Stepwise R]

/-- The end of a call stands behind that of the body of its function. -/
theorem Stepwise.finish (e : Entry) (o : Outcome Unit) : R o.machine (e.finish o).machine := by
  have hleft : R o.machine (Entry.leave (o.machine.inFrame e.machine.frame)) :=
    Stepwise.aside o.machine e.machine.frame (o.machine.depth - 1)
  rcases e.machine_finish o with h | ⟨id, classId, h⟩ <;> rw [h]
  · exact hleft
  · exact Lasting.trans hleft Durable.copy

theorem Stepwise.abandon (m : Machine) : R m m.abandon :=
  Lasting.trans (Stepwise.flush m) (Stepwise.aside { m with sink := m.sink.flush.1 } globalFrame 0)

/-- The tasks that a task asks for come one after another. -/
theorem perform_ordered (R : Machine → Machine → Prop) [Stepwise R] (steps : Nat) (task : Task) (m : Machine) :
    Course.Ordered R (fun p => Evaluation.performOver p steps task m) (perform steps) m := by
  have hp := perform_durable R steps
  cases task.manner steps m with
  | plain h => exact h.ordered (fun _ _ => Durable.moves) hp
  | @block body =>
    have hbody := ((course_body body m.inBlock).ordered nofun hp).map (m := m)
      (Stepwise.block m) (g := Outcome.onMachine (Machine.inFrame m.frame)) fun o => by
        rw [Outcome.machine_onMachine]
        exact Stepwise.aside o.machine m.frame o.machine.depth
    exact (funext fun p => execution_block p steps body m).symm ▸ hbody
  | @refused callee arguments line _ e he hd =>
    have heq := fun p => (invocation_of_entry p line he).trans (if_pos hd)
    exact (funext heq).symm ▸ Course.ordered_const (Durable.entry he)
  | @entered callee arguments line _ e he hd =>
    have heq := fun p => (invocation_of_entry p line he).trans (if_neg hd)
    have hinside : R m (e.inside arguments) := Lasting.trans (Stepwise.entry he) (Stepwise.inside e arguments)
    exact (funext heq).symm ▸ ((course_body _ _).ordered nofun hp).map hinside (Stepwise.finish e)

end

namespace Activity

variable {R : Machine → Machine → Prop} [Stepwise R] {a b : Activity}

theorem AsksFor.begins (h : a.AsksFor b) : R a.machine b.machine := by
  obtain ⟨hasks⟩ := h
  exact (perform_ordered R _ _ _).begins _ _ hasks

theorem AsksFor.answered (h : a.AsksFor b) : R b.outcome.machine a.outcome.machine := by
  obtain ⟨hasks⟩ := h
  exact (perform_ordered R _ _ _).answered _ _ hasks

end Activity

namespace Machine

variable {R : Machine → Machine → Prop} [Stepwise R] {steps : Nat} {program : List Stmt} {m : Machine} {a : Activity}
  {outer : List Activity}

theorem Underway.begins (h : m.Underway steps program (a :: outer)) : R m a.machine := by
  generalize hstack : a :: outer = stack at h
  induction h generalizing a outer with
  | here =>
    cases hstack
    exact Lasting.refl _
  | @later s _ m m₁ _ hnext _ ih =>
    have hstatement := perform_durable R steps (.execute s) m
    rw [machine_of_next? hnext] at hstatement
    exact Lasting.trans hstatement (ih hstack)
  | within _ hasks ih =>
    cases hstack
    exact Lasting.trans (ih rfl) hasks.begins

/-- Where a program ends behind its first statement, nothing follows but that it is given up. -/
theorem interpret_last {s : Stmt} {rest : List Stmt}
    (h : (m.interpret steps (s :: rest)).2 = (perform steps (.execute s) m).machine ∨
      (m.interpret steps (s :: rest)).2 = (perform steps (.execute s) m).machine.abandon) :
    R (perform steps (.execute s) m).machine (m.interpret steps (s :: rest)).2 := by
  rcases h with h | h <;> rw [h]
  · exact Lasting.refl _
  · exact Stepwise.abandon _

theorem interpret_stepwise (R : Machine → Machine → Prop) [Stepwise R] (steps : Nat) (program : List Stmt) (m : Machine) :
    R m (m.interpret steps program).2 := by
  induction program generalizing m with
  | nil =>
    rw [interpret_nil]
    exact Stepwise.flush m
  | cons s rest ih =>
    have hstatement := perform_durable R steps (.execute s) m
    rcases interpret_cons steps s rest m with ⟨m₁, hnext, heq⟩ | ⟨-, heq⟩
    · rw [machine_of_next? hnext] at hstatement
      rw [heq]
      exact Lasting.trans hstatement (ih m₁)
    · exact Lasting.trans hstatement (interpret_last heq)

theorem Underway.ends (h : m.Underway steps program (a :: outer)) : R a.outcome.machine (m.interpret steps program).2 := by
  generalize hstack : a :: outer = stack at h
  induction h generalizing a outer with
  | @here s rest m =>
    cases hstack
    rcases interpret_cons steps s rest m with ⟨m₁, hnext, heq⟩ | ⟨-, heq⟩
    · rw [heq]
      show R (perform steps (.execute s) m).machine (m₁.interpret steps rest).2
      rw [machine_of_next? hnext]
      exact interpret_stepwise R steps rest m₁
    · exact interpret_last heq
  | @later s rest m m₁ _ hnext _ ih =>
    rcases interpret_cons steps s rest m with ⟨m₂, hnext', heq⟩ | ⟨hnone, -⟩
    · cases hnext.symm.trans hnext'
      rw [heq]
      exact ih hstack
    · cases hnext.symm.trans hnone
  | within _ hasks ih =>
    cases hstack
    exact Lasting.trans hasks.answered (ih rfl)

end Machine

end Treewalk
