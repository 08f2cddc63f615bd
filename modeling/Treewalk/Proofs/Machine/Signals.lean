import Treewalk.Proofs.Machine.Durability

/-!
Where signals come from and where they go. A signal that ends a task is one of its own or ended a task that it asked
for; and the other way round, a signal that ends a task ends the one that asked for it too, unless that is a loop whose
body breaks it or a call whose function returns.
-/

namespace Treewalk

namespace Entry

variable (e : Entry) (w : Machine)

theorem finish_of_returned (value : Value) :
    e.finish (.stopped (.returned value) w) = e.complete (.done value (leave (w.inFrame e.machine.frame))) := rfl

theorem finish_of_stopped {s : Signal} (hs : ∀ value, s ≠ .returned value) :
    e.finish (.stopped s w) = .stopped s (leave (w.inFrame e.machine.frame)) := by
  cases s with
  | returned value => exact absurd rfl (hs value)
  | _ => rfl

theorem complete_of_done (value : Value) : ∃ value' w', e.complete (.done value w) = .done value' w' := by
  simp only [complete]
  cases e.made with
  | none => exact ⟨_, _, rfl⟩
  | some made => exact ⟨_, _, rfl⟩

variable {e w}

/-- What stops a call is what stopped the body of its function, unless that returned, or the lack of a receiver. -/
theorem finish_eq_stopped {o : Outcome Unit} {s : Signal} (h : e.finish o = .stopped s w) :
    (∃ w', o = .stopped s w' ∧ ∀ value, s ≠ .returned value) ∨
      ∃ error, s = .failed error ∧ ∀ task : Task, task.Faults error.fault := by
  cases o with
  | stopped s' w' =>
    cases s' with
    | returned value =>
      rw [finish_of_returned] at h
      obtain ⟨value', w'', hdone⟩ := e.complete_of_done (leave (w'.inFrame e.machine.frame)) value
      rw [hdone] at h
      cases h
    | _ =>
      cases h
      exact Or.inl ⟨w', rfl, nofun⟩
  | done u w' =>
    simp only [finish, Outcome.onMachine, Closure.conclude] at h
    by_cases hf : e.function.isInitializer
    · simp only [if_pos hf] at h
      rcases receiver_cases e.function (w'.inFrame e.machine.frame) with ⟨value, -, hvalue⟩ | ⟨-, hfails⟩
      · rw [hvalue] at h
        obtain ⟨value', w'', hdone⟩ := e.complete_of_done (leave (w'.inFrame e.machine.frame)) value
        simp only [hdone] at h
        cases h
      · rw [hfails] at h
        cases h
        exact Or.inr ⟨_, rfl, fun _ => trivial⟩
    · simp only [if_neg hf] at h
      obtain ⟨value', w'', hdone⟩ := e.complete_of_done (leave (w'.inFrame e.machine.frame)) .nil
      simp only [hdone] at h
      cases h

end Entry

/-- What the function of an entry comes to, as one more call. -/
def Entry.applied (e : Entry) (steps : Nat) (arguments : List Value) : Outcome Value :=
  Evaluation.apply (perform steps) e.function arguments { e.machine with depth := e.machine.depth + 1 }

/-- A call of a function comes to what the function comes to, unless it is refused. -/
theorem perform_entered {steps line : Nat} {callee : Value} {arguments : List Value} {m : Machine} {e : Entry}
    (he : m.entered? callee arguments = some e) :
    perform (steps + 1) (.invoke callee arguments line) m =
      if depthLimit ≤ m.depth then .stopped (.failed ⟨line, .tooDeep⟩) e.machine
      else e.complete ((e.applied steps arguments).onMachine Entry.leave) := by
  refine (invocation_of_entry (perform steps) line he).trans ?_
  rw [Entry.applied, apply_eq]
  rfl

/-- A signal that ends a task is one of its own, or ended a task that was asked for and was not caught; or the task is a
call of a function that was refused. -/
theorem perform_origin {steps : Nat} {task : Task} {m w : Machine} {s : Signal}
    (h : perform (steps + 1) task m = .stopped s w) :
    task.Stops s ∨
      (∃ callee arguments line e, task = .invoke callee arguments line ∧ m.entered? callee arguments = some e ∧
        depthLimit ≤ m.depth ∧ s = .failed ⟨line, .tooDeep⟩) ∨
      ∃ t n w', Asks (fun p => Evaluation.performOver p steps task m) (perform steps) t n ∧ ¬task.Catches t s ∧
        perform steps t n = .stopped s w' := by
  cases task.manner steps m with
  | plain hcourse =>
    rcases hcourse.origin h with hs | ⟨t, n, hsteers, hc, ht⟩
    · exact Or.inl hs
    · exact Or.inr (Or.inr ⟨t, n, w, hsteers.asks, hc, ht⟩)
  | @block body =>
    have hblock := (execution_block (perform steps) steps body m).symm.trans h
    cases hbody : Evaluation.executeAll (perform steps) body m.inBlock with
    | done u w' =>
      rw [hbody] at hblock
      cases hblock
    | stopped s' w' =>
      rw [hbody] at hblock
      cases hblock
      rcases (course_body body m.inBlock).origin hbody with hs | ⟨t, n, hsteers, -, ht⟩
      · exact absurd hs id
      · exact Or.inr (Or.inr ⟨t, n, w', (steers_block hsteers).asks, nofun, ht⟩)
  | @refused callee arguments line _ e he hd =>
    have hfails := (invocation_of_entry (perform steps) line he).trans (if_pos hd)
    cases hfails.symm.trans h
    exact Or.inr (Or.inl ⟨callee, arguments, line, e, rfl, he, hd, rfl⟩)
  | @entered callee arguments line _ e he hd =>
    have hfinish := ((invocation_of_entry (perform steps) line he).trans (if_neg hd)).symm.trans h
    rcases Entry.finish_eq_stopped hfinish with ⟨w', hbody, hs⟩ | ⟨error, rfl, herror⟩
    · rcases (course_body _ _).origin hbody with hs' | ⟨t, n, hsteers, -, ht⟩
      · exact absurd hs' id
      · refine Or.inr (Or.inr ⟨t, n, w', (steers_entered he hd hsteers).asks, ?_, ht⟩)
        rintro ⟨⟩
        exact hs _ rfl
    · exact Or.inl (.failed (herror _))

/-- A signal that ends a task ends the one that asked for it too, unless it is caught. -/
theorem perform_relay {steps : Nat} {task t : Task} {m n w : Machine} {s : Signal}
    (h : Asks (fun p => Evaluation.performOver p steps task m) (perform steps) t n)
    (ht : perform steps t n = .stopped s w) (hc : ¬task.Catches t s) :
    ∃ w', perform (steps + 1) task m = .stopped s w' := by
  cases task.manner steps m with
  | plain hcourse => exact ⟨w, (hcourse.relay h ht).1 hc⟩
  | @block body =>
    have hbody := ((course_body body m.inBlock).relay (asks_block h) ht).1 id
    exact ⟨_, (execution_block (perform steps) steps body m).trans (congrArg _ hbody)⟩
  | refused he hd => exact absurd h (not_asks_refused he hd)
  | @entered callee arguments line _ e he hd =>
    have hasks := asks_entered he hd h
    obtain ⟨⟨s', -, rfl⟩, -⟩ := ((course_body _ _).durable (perform_durable SameContext steps) nofun).2 t n hasks
    have hbody := ((course_body _ _).relay hasks ht).1 id
    have hs : ∀ value, s ≠ .returned value := by
      rintro value rfl
      exact hc .returned
    have hfinish := (invocation_of_entry (perform steps) line he).trans (if_neg hd)
    exact ⟨_, hfinish.trans ((congrArg e.finish hbody).trans (e.finish_of_stopped w hs))⟩

theorem perform_broken {steps : Nat} {condition : Expr} {body : Stmt} {m n w : Machine}
    (h : Asks (fun p => Evaluation.performOver p steps (.execute (.whileLoop condition body)) m) (perform steps)
      (.execute body) n) (hbody : perform steps (.execute body) n = .stopped .broke w) :
    perform (steps + 1) (.execute (.whileLoop condition body)) m = .done () w := by
  have hcourse := course_execution steps (s := .whileLoop condition body) (fun _ => Stmt.noConfusion) m
  obtain ⟨u, hdone⟩ := (hcourse.relay h hbody).2 .broke
  exact hdone

/-- A call whose function returns a value ends with it, or with the instance that was made. -/
theorem perform_returned {steps line : Nat} {callee : Value} {arguments : List Value} {t : Task} {m n w : Machine}
    {value : Value} (h : Asks (fun p => Evaluation.performOver p steps (.invoke callee arguments line) m) (perform steps) t n)
    (ht : perform steps t n = .stopped (.returned value) w) :
    ∃ e, m.entered? callee arguments = some e ∧
      perform (steps + 1) (.invoke callee arguments line) m =
        e.complete (.done value (Entry.leave (w.inFrame e.machine.frame))) ∧
      e.applied steps arguments = .done value (w.inFrame e.machine.frame) := by
  cases (Task.invoke callee arguments line).manner steps m with
  | plain hcourse =>
    obtain ⟨hpart, -⟩ := (hcourse.durable (perform_durable SameContext steps) fun _ _ => Durable.moves).2 t n h
    cases hpart
  | refused he hd => exact absurd h (not_asks_refused he hd)
  | @entered _ _ _ _ e he hd =>
    have hbody := ((course_body _ _).relay (asks_entered he hd h) ht).1 id
    have hfinish := (invocation_of_entry (perform steps) line he).trans (if_neg hd)
    refine ⟨e, he, hfinish.trans (congrArg _ hbody), ?_⟩
    exact (apply_eq (perform steps) e.function arguments _).trans
      (congrArg (fun o => e.function.conclude (o.onMachine (Machine.inFrame e.machine.frame))) hbody)

end Treewalk
