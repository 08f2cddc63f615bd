import Treewalk.Proofs.Machine.Surroundings

/-!
What a sink is asked for in the course of a program: to take lines, and at the end to pass on what it holds. A line that is
refused makes the statement fail that prints it, and the whole program with it. So wherever nothing failed, the sink has
granted all that it was asked for.
-/

namespace Treewalk

/-- The sink granted all that it was asked for in between. -/
inductive Sink.Grants : Sink → Sink → Prop where
  | refl (s : Sink) : Grants s s
  | write {s s' t} (piece : String) : s.write piece = (s', none) → Grants s' t → Grants s t
  | flush {s s' t} : s.flush = (s', none) → Grants s' t → Grants s t

namespace Sink.Grants

variable {r s t : Sink}

theorem trans (h : r.Grants s) (h' : s.Grants t) : r.Grants t := by
  induction h with
  | refl => exact h'
  | write piece hwrite _ ih => exact .write piece hwrite (ih h')
  | flush hflush _ ih => exact .flush hflush (ih h')

theorem writeLine {line : String} (h : s.writeLine line = (t, none)) : s.Grants t := by
  unfold Sink.writeLine at h
  split at h
  · next hline => exact .write line hline (.write "\n" h (.refl t))
  · next hrefused => exact absurd h (hrefused t)

end Sink.Grants

namespace Sink

variable {s : Sink}

/-- The sink takes everything. -/
def Willing (s : Sink) : Prop :=
  ∀ n text, s.refusesWrite n text = none ∧ s.refusesFlush n text = none

theorem Willing.write_eq (h : s.Willing) (piece : String) : ∃ s', s.write piece = (s', none) ∧ s'.Willing := by
  unfold Sink.write
  split
  · exact ⟨s, rfl, h⟩
  · rw [(h _ _).1]
    exact ⟨_, rfl, h⟩

theorem Willing.flush_eq (h : s.Willing) : ∃ s', s.flush = (s', none) ∧ s'.Willing :=
  ⟨_, congrArg (Prod.mk _) (h _ _).2, h⟩

theorem Willing.writeLine (h : s.Willing) (line : String) : (s.writeLine line).1.Willing := by
  obtain ⟨s', hline, hs'⟩ := h.write_eq line
  obtain ⟨s'', hend, hs''⟩ := hs'.write_eq "\n"
  rw [Sink.writeLine, hline]
  dsimp only
  rw [hend]
  exact hs''

end Sink

/-- A sink that takes everything goes on to do so. -/
def StaysWilling (m m' : Machine) : Prop := m.sink.Willing → m'.sink.Willing

instance : Stepwise StaysWilling where
  refl _ := id
  trans h h' := h' ∘ h
  moves h := by
    cases h with
    | print => exact fun h => h.writeLine _
    | _ => exact id
  block _ := id
  entry he := by
    obtain ⟨heap, heq⟩ := Machine.entered?_heap he
    rw [heq]
    exact id
  inside _ _ := id
  aside _ _ _ := id
  flush m h := by
    obtain ⟨sink, hflush, hsink⟩ := h.flush_eq
    rw [hflush]
    exact hsink
  copy := id

section
variable {steps : Nat} {task t : Task} {m n : Machine}

/-- Only a print statement asks for anything by itself. -/
theorem Task.Moves.sink {m' : Machine} (h : task.Moves m m') (hprint : ∀ keyword values, task ≠ .execute (.print keyword values)) :
    m'.sink = m.sink := by
  cases h with
  | print => exact absurd rfl (hprint _ _)
  | _ => rfl

theorem Task.not_catches_failed {e : RuntimeError} : ¬task.Catches t (.failed e) := by
  rintro ⟨⟩

theorem Entry.sink_finish (e : Entry) (o : Outcome Unit) : (e.finish o).machine.sink = o.machine.sink := by
  rcases e.machine_finish o with h | ⟨id, classId, h⟩ <;> rw [h] <;> rfl

/-- What evaluating expressions in their order may do. -/
def Expr.listConduct : Conduct where
  moves _ _ := False
  asks task := ∃ e, task = .evaluate e
  stops _ := False
  catches _ _ := False
  uncaught _ h := h

/-- Where nothing failed, the sink granted what a task asked for, if it did so in the tasks that this one asks for. -/
theorem grants_printed (keyword : Token) (values : List Expr)
    (hasked : ∀ t n, (∀ e w, perform steps t n ≠ .stopped (.failed e) w) → n.sink.Grants (perform steps t n).machine.sink)
    (h : ∀ e w, perform (steps + 1) (.execute (.print keyword values)) m ≠ .stopped (.failed e) w) :
    m.sink.Grants (perform (steps + 1) (.execute (.print keyword values)) m).machine.sink := by
  have hcourse : Course Expr.listConduct m fun p => Evaluation.evaluateAll p values m :=
    .evaluateAll (fun e _ => ⟨e, rfl⟩) fun _ _ => id
  have hrest : ∀ {s : Signal} {w : Machine}, Evaluation.evaluateAll (perform steps) values m = .stopped s w →
      perform (steps + 1) (.execute (.print keyword values)) m = .stopped s w := fun hstop => Run.bind_of_stopped hstop
  have hvalues : m.sink.Grants (Evaluation.evaluateAll (perform steps) values m).machine.sink := by
    refine (hcourse.maintain (I := fun n => m.sink.Grants n.sink) (perform steps) (.refl _) (fun _ _ hmove => hmove.elim)
      fun t n _ hn hsteers => hn.trans (hasked t n fun e w hfailed => ?_)).1
    exact h e w (hrest ((hcourse.relay hsteers.asks hfailed).1 id))
  cases hall : Evaluation.evaluateAll (perform steps) values m with
  | stopped s w =>
    rw [hall] at hvalues
    rw [hrest hall]
    exact hvalues
  | done items w =>
    rw [hall] at hvalues
    have heq : perform (steps + 1) (.execute (.print keyword values)) m =
        Run.printLine (String.intercalate " " (Value.texts w.heap items)) keyword.line w := Run.bind_of_done hall
    rw [heq] at h ⊢
    unfold Run.printLine at h ⊢
    rcases hline : w.sink.writeLine (String.intercalate " " (Value.texts w.heap items)) with ⟨sink, _ | reason⟩
    · exact hvalues.trans (.writeLine hline)
    · rw [hline] at h
      exact absurd rfl (h _ _)

/-- Where nothing failed, the sink granted all that a task asked for. -/
theorem perform_grants (h : ∀ e w, perform steps task m ≠ .stopped (.failed e) w) :
    m.sink.Grants (perform steps task m).machine.sink := by
  induction steps generalizing task m with
  | zero => exact .refl _
  | succ steps ih =>
    -- A task that was asked for did not fail, since its failure would be that of the whole.
    have hasked : ∀ t n, Asks (fun p => Evaluation.performOver p steps task m) (perform steps) t n →
        n.sink.Grants (perform steps t n).machine.sink := by
      intro t n hasks
      refine ih fun e w hfailed => ?_
      obtain ⟨w', hw'⟩ := perform_relay hasks hfailed Task.not_catches_failed
      exact h e w' hw'
    cases task.manner steps m with
    | plain hcourse =>
      by_cases hprint : ∃ keyword values, task = .execute (.print keyword values)
      · obtain ⟨keyword, values, rfl⟩ := hprint
        exact grants_printed keyword values (fun t n => ih) h
      · refine (hcourse.maintain (I := fun n => m.sink.Grants n.sink) (perform steps) (.refl _) (fun n n' hmove hn => ?_)
          fun t n _ hn hsteers => hn.trans (hasked t n hsteers.asks)).1
        rw [hmove.sink fun keyword values heq => hprint ⟨keyword, values, heq⟩]
        exact hn
    | @block body =>
      show m.sink.Grants (Evaluation.execution (perform steps) steps (.block body) m).machine.sink
      rw [execution_block, Outcome.machine_onMachine]
      exact ((course_body body m.inBlock).maintain (I := fun n => m.sink.Grants n.sink) (perform steps) (.refl _)
        (fun _ _ hmove => hmove.elim) fun t n _ hn hsteers => hn.trans (hasked t n (steers_block hsteers).asks)).1
    | @refused callee arguments line _ e he hd => exact absurd ((invocation_of_entry _ line he).trans (if_pos hd)) (h _ _)
    | @entered callee arguments line _ e he hd =>
      show m.sink.Grants (Evaluation.invocation (perform steps) callee arguments line m).machine.sink
      rw [invocation_of_entry _ line he, if_neg hd, e.sink_finish]
      obtain ⟨heap, heq⟩ := Machine.entered?_heap he
      have hinside : (e.inside arguments).sink = m.sink := by
        show e.machine.sink = m.sink
        rw [heq]
      refine ((course_body e.function.routine.body (e.inside arguments)).maintain (I := fun n => m.sink.Grants n.sink)
        (perform steps) (hinside ▸ .refl _) (fun _ _ hmove => hmove.elim) fun t n _ hn hsteers => ?_).1
      exact hn.trans (hasked t n (steers_entered he hd hsteers).asks)

end

/-- A program that finishes was granted all that it asked the sink for, and one whose sink refuses the last flush was
granted all but that. -/
theorem Machine.interpret_grants {steps : Nat} {program : List Stmt} {m m' : Machine} {ending : Ending}
    (h : m.interpret steps program = (ending, m')) :
    (ending = .finished → m.sink.Grants m'.sink) ∧
      ∀ reason, ending = .unflushed reason → ∃ sink, m.sink.Grants sink ∧ sink.flush = (m'.sink, some reason) := by
  induction program generalizing m with
  | nil =>
    unfold interpret at h
    rcases hflush : m.sink.flush with ⟨sink, _ | reason⟩ <;> rw [hflush] at h <;> cases h
    · exact ⟨fun _ => .flush hflush (.refl _), by simp⟩
    · exact ⟨by simp, fun _ heq => ⟨m.sink, .refl _, by cases heq; exact hflush⟩⟩
  | cons s rest ih =>
    rcases interpret_cases steps s rest m with ⟨m₁, hnext, heq⟩ | ⟨e, w, -, heq⟩ | ⟨w, -, heq⟩ <;> rw [heq] at h
    · have hstatement : ∀ e w, perform steps (.execute s) m ≠ .stopped (.failed e) w := by
        intro e w hrun
        simp only [next?, hrun] at hnext
        cases hnext
      have hfirst : m.sink.Grants m₁.sink := machine_of_next? hnext ▸ perform_grants hstatement
      obtain ⟨hfinished, hunflushed⟩ := ih h
      refine ⟨fun heq => hfirst.trans (hfinished heq), fun reason heq => ?_⟩
      obtain ⟨sink, hsink, hflush⟩ := hunflushed reason heq
      exact ⟨sink, hfirst.trans hsink, hflush⟩
    · cases h
      simp
    · cases h
      simp

end Treewalk
