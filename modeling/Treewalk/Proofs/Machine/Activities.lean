import Treewalk.Proofs.Machine.Signals

/-!
What is under way at a moment of a run: a stack of activities, each of which was asked for by the one below it. The
number of running calls is read off this stack, and a failure because of too many of them leads to a call on top of it.
-/

namespace Treewalk

/-- The next statement of a program runs on the machine that this one left. -/
theorem Machine.machine_of_next? {steps : Nat} {s : Stmt} {m m' : Machine} (h : m.next? steps s = some m') :
    (perform steps (.execute s) m).machine = m' := by
  unfold next? at h
  split at h
  · next heq =>
    rw [heq]
    exact Option.some.inj h
  · cases h
  · cases h
  · next heq =>
    rw [heq]
    exact Option.some.inj h

/-- The rest of a program runs from where its first statement ended, unless that one failed or ran out of steps. -/
theorem Machine.interpret_cases (steps : Nat) (s : Stmt) (rest : List Stmt) (m : Machine) :
    (∃ m₁, m.next? steps s = some m₁ ∧ m.interpret steps (s :: rest) = m₁.interpret steps rest) ∨
      (∃ e w, perform steps (.execute s) m = .stopped (.failed e) w ∧
        m.interpret steps (s :: rest) = (.failed e, w.abandon)) ∨
      ∃ w, perform steps (.execute s) m = .stopped .suspended w ∧ m.interpret steps (s :: rest) = (.suspended, w) := by
  cases hrun : perform steps (.execute s) m with
  | done u w =>
    simp only [next?, interpret, hrun]
    exact Or.inl ⟨w, rfl, rfl⟩
  | stopped signal w =>
    simp only [next?, interpret, hrun]
    cases signal with
    | failed e => exact Or.inr (Or.inl ⟨e, w, rfl, rfl⟩)
    | suspended => exact Or.inr (Or.inr ⟨w, rfl, rfl⟩)
    | returned value => exact Or.inl ⟨w, rfl, rfl⟩
    | broke => exact Or.inl ⟨w, rfl, rfl⟩

/-- The rest of a program runs from where its first statement ended, or the program ends there. -/
theorem Machine.interpret_cons (steps : Nat) (s : Stmt) (rest : List Stmt) (m : Machine) :
    (∃ m₁, m.next? steps s = some m₁ ∧ m.interpret steps (s :: rest) = m₁.interpret steps rest) ∨
      m.next? steps s = none ∧
        ((m.interpret steps (s :: rest)).2 = (perform steps (.execute s) m).machine ∨
          (m.interpret steps (s :: rest)).2 = (perform steps (.execute s) m).machine.abandon) := by
  rcases interpret_cases steps s rest m with hnext | ⟨e, w, hrun, heq⟩ | ⟨w, hrun, heq⟩
  · exact Or.inl hnext
  · have hnone : m.next? steps s = none := by simp only [next?, hrun]
    rw [heq, hrun]
    exact Or.inr ⟨hnone, Or.inr rfl⟩
  · have hnone : m.next? steps s = none := by simp only [next?, hrun]
    rw [heq, hrun]
    exact Or.inr ⟨hnone, Or.inl rfl⟩

theorem Machine.interpret_nil (steps : Nat) (m : Machine) : (m.interpret steps []).2 = { m with sink := m.sink.flush.1 } := by
  unfold interpret
  rcases m.sink.flush with ⟨sink, _ | reason⟩ <;> rfl

/-! ### Stacks of activities -/

/-- A task that was begun, with its grant of steps and the machine on which it began. -/
structure Activity where
  steps : Nat
  task : Task
  machine : Machine

namespace Activity

/-- What the activity comes to. -/
def outcome (a : Activity) : Outcome a.task.Result := perform a.steps a.task a.machine

/-- The function that the activity enters, if it is a call of one. -/
def entered? (a : Activity) : Option Entry :=
  match a.task with
  | .invoke callee arguments _ => a.machine.entered? callee arguments
  | _ => none

/-- The functions that activities have entered. -/
def calls (stack : List Activity) : List Entry := stack.filterMap entered?

/-- The first activity asks for the second one. -/
inductive AsksFor : Activity → Activity → Prop where
  | intro {steps task m t n} : Asks (fun p => Evaluation.performOver p steps task m) (perform steps) t n →
      AsksFor ⟨steps + 1, task, m⟩ ⟨steps, t, n⟩

variable {a b : Activity}

theorem AsksFor.hands (R : Machine → Machine → Prop) [Durable R] (h : a.AsksFor b) :
    a.task.Hands R a.machine b.task b.machine := by
  cases h with
  | intro h => exact perform_hands R h

theorem length_calls_cons (a : Activity) (outer : List Activity) :
    (calls (a :: outer)).length = (calls outer).length + a.entered?.toList.length := by
  unfold calls
  cases h : a.entered? with
  | none => simp [List.filterMap_cons_none h]
  | some e => simp [List.filterMap_cons_some h]

/-- A call that asks for anything is one more running call; nothing else is. -/
theorem AsksFor.depth (h : a.AsksFor b) (ha : a.machine.depth ≤ depthLimit) :
    b.machine.depth = a.machine.depth + a.entered?.toList.length ∧ b.machine.depth ≤ depthLimit := by
  obtain ⟨steps, task, m⟩ := a
  obtain ⟨steps', task', n⟩ := b
  rcases h.hands SameContext with ⟨ht, hn⟩ | ⟨hs, hn⟩ | ⟨he, hd, hs, hn⟩
  · have hentry : entered? ⟨steps, task, m⟩ = none := by cases ht <;> rfl
    rw [hentry]
    exact ⟨hn.depth, hn.depth ▸ ha⟩
  · exact ⟨hn.depth, hn.depth.symm ▸ ha⟩
  · next callee arguments line e s =>
    have hentry : entered? ⟨steps, .invoke callee arguments line, m⟩ = some e := he
    have hdepth : n.depth = m.depth + 1 := hn.depth.trans (congrArg (· + 1) (Machine.entered?_context he).depth)
    rw [hentry]
    exact ⟨hdepth, hdepth ▸ Nat.not_le.mp hd⟩

end Activity

section
variable {α : Type} (task : Task) {k : task.Result → Performer → Run α} {p : Performer} {m : Machine}

theorem steers_ask : Steers (fun p => p task m) p task m :=
  @Course.steers_first (Stmt.bodyConduct []) _ task (fun o _ => o) (fun _ _ _ _ => rfl) p m

theorem steers_bind : Steers (fun p => (p task >>= fun a => k a p) m) p task m :=
  @Course.steers_first (Stmt.bodyConduct []) α task (fun o p => Run.bind (fun _ => o) (fun a => k a p) m)
    (fun _ _ _ _ => rfl) p m

theorem steers_bind_later {a : task.Result} {t : Task} {n w : Machine} (ha : p task m = .done a n)
    (h : Steers (fun p => k a p n) p t w) : Steers (fun p => (p task >>= fun a => k a p) m) p t w := by
  refine @Course.steers_later (Stmt.bodyConduct []) α m p task (fun o p => Run.bind (fun _ => o) (fun a => k a p) m)
    (fun _ _ _ _ => rfl) t w ?_
  rw [ha]
  exact h

end

namespace Activity

variable {steps : Nat} {m : Machine} {s : Stmt} {rest : List Stmt}

theorem asksFor_block : AsksFor ⟨steps + 1, .execute (.block (s :: rest)), m⟩ ⟨steps, .execute s, m.inBlock⟩ := by
  refine .intro (steers_block ?_).asks
  simp only [Evaluation.executeAll_cons]
  exact steers_bind (.execute s)

theorem asksFor_entered {line : Nat} {callee : Value} {arguments : List Value} {e : Entry}
    (he : m.entered? callee arguments = some e) (hd : m.depth < depthLimit)
    (hbody : e.function.routine.body = s :: rest) :
    AsksFor ⟨steps + 1, .invoke callee arguments line, m⟩ ⟨steps, .execute s, e.inside arguments⟩ := by
  refine .intro (steers_entered he (Nat.not_le.mpr hd) ?_).asks
  simp only [hbody, Evaluation.executeAll_cons]
  exact steers_bind (.execute s)

end Activity

/-- In the course of a program on the given machine the activities are under way, the newest one first. -/
inductive Machine.Underway (steps : Nat) : List Stmt → Machine → List Activity → Prop where
  | here {s rest m} : Underway steps (s :: rest) m [⟨steps, .execute s, m⟩]
  | later {s rest m m₁ stack} : m.next? steps s = some m₁ → Underway steps rest m₁ stack →
      Underway steps (s :: rest) m stack
  | within {program m a b outer} : Underway steps program m (a :: outer) → a.AsksFor b →
      Underway steps program m (b :: a :: outer)

namespace Machine.Underway

variable {steps : Nat} {program : List Stmt} {m : Machine} {a b : Activity} {outer : List Activity}

theorem oldest (h : m.Underway steps program [a]) : ∃ s ∈ program, a.task = .execute s := by
  generalize hstack : [a] = stack at h
  induction h with
  | @here s =>
    cases hstack
    exact ⟨s, List.mem_cons_self, rfl⟩
  | later _ _ ih =>
    obtain ⟨s, hs, htask⟩ := ih hstack
    exact ⟨s, List.mem_cons_of_mem _ hs, htask⟩
  | within => cases hstack

theorem asked (h : m.Underway steps program (b :: a :: outer)) :
    m.Underway steps program (a :: outer) ∧ a.AsksFor b := by
  generalize hstack : b :: a :: outer = stack at h
  induction h with
  | here => cases hstack
  | later hnext _ ih =>
    obtain ⟨hunder, hasks⟩ := ih hstack
    exact ⟨.later hnext hunder, hasks⟩
  | within hunder hasks =>
    cases hstack
    exact ⟨hunder, hasks⟩

/-- The number of running calls is the number of functions that were entered below the newest activity. -/
theorem depth (h : m.Underway steps program (a :: outer)) (hm : m.depth ≤ depthLimit) :
    a.machine.depth = m.depth + (Activity.calls outer).length ∧ a.machine.depth ≤ depthLimit := by
  generalize hstack : a :: outer = stack at h
  induction h generalizing a outer with
  | here =>
    cases hstack
    exact ⟨rfl, hm⟩
  | @later s _ m _ _ hnext _ ih =>
    have hcontext := perform_durable SameContext steps (.execute s) m
    rw [Machine.machine_of_next? hnext] at hcontext
    rw [← hcontext.depth] at hm ⊢
    exact ih hm hstack
  | within _ hasks ih =>
    cases hstack
    obtain ⟨hdepth, hle⟩ := ih hm rfl
    obtain ⟨hnew, hnewle⟩ := hasks.depth hle
    refine ⟨?_, hnewle⟩
    rw [hnew, hdepth, Activity.length_calls_cons, Nat.add_assoc]

/-- A failure because of too many running calls began at the call of a function, on top of what failed, on a machine with
as many running calls as there may be. -/
theorem tooDeep_origin {line : Nat} {w : Machine} (h : m.Underway steps program (a :: outer))
    (hfailed : a.outcome = .stopped (.failed ⟨line, .tooDeep⟩) w) :
    ∃ call below callee arguments e, m.Underway steps program (call :: below) ∧ a :: outer <:+ call :: below ∧
      call.steps ≠ 0 ∧ call.task = .invoke callee arguments line ∧ call.entered? = some e ∧
      depthLimit ≤ call.machine.depth := by
  obtain ⟨k, task, n⟩ := a
  induction k generalizing task n outer w with
  | zero => cases hfailed
  | succ k ih =>
    rcases perform_origin hfailed with hstops | ⟨callee, arguments, line', e, rfl, he, hd, hline⟩ |
      ⟨t, n', w', hasks, -, ht⟩
    · cases hstops with
      | failed herror => exact herror.elim
    · cases hline
      exact ⟨_, outer, callee, arguments, e, h, List.suffix_refl _, Nat.succ_ne_zero k, rfl, he, hd⟩
    · obtain ⟨call, below, callee, arguments, e, hunder, hsuffix, hrest⟩ := ih t n' (h.within (.intro hasks)) ht
      exact ⟨call, below, callee, arguments, e, hunder, (List.suffix_cons _ _).trans hsuffix, hrest⟩

theorem ofCall {k : Nat} {callee : Expr} {paren : Token} {rest : List Stmt} {f : Value} {n : Machine}
    (hcallee : perform k (.evaluate callee) m = .done f n) :
    m.Underway (k + 2) (.expression (.call callee paren []) :: rest)
      [⟨k, .invoke f [] paren.line, n⟩, ⟨k + 1, .evaluate (.call callee paren []), m⟩,
        ⟨k + 2, .execute (.expression (.call callee paren [])), m⟩] := by
  have hstatement : Activity.AsksFor ⟨k + 2, .execute (.expression (.call callee paren [])), m⟩
      ⟨k + 1, .evaluate (.call callee paren []), m⟩ := .intro (steers_bind (.evaluate (.call callee paren []))).asks
  have hexpression : Activity.AsksFor ⟨k + 1, .evaluate (.call callee paren []), m⟩ ⟨k, .invoke f [] paren.line, n⟩ :=
    .intro (steers_bind_later (.evaluate callee) hcallee (steers_ask (.invoke f [] paren.line))).asks
  exact (Underway.here.within hstatement).within hexpression

end Machine.Underway

/-- The call of a function fails where as many calls are running as there may be. -/
theorem Activity.outcome_of_tooDeep {a : Activity} {callee : Value} {arguments : List Value} {line : Nat} {e : Entry}
    (hsteps : a.steps ≠ 0) (htask : a.task = .invoke callee arguments line) (he : a.entered? = some e)
    (hd : depthLimit ≤ a.machine.depth) : ∃ w, a.outcome = .stopped (.failed ⟨line, .tooDeep⟩) w := by
  obtain ⟨_ | steps, task, m⟩ := a
  · exact absurd rfl hsteps
  · cases htask
    exact ⟨e.machine, (invocation_of_entry (perform steps) line he).trans (if_pos hd)⟩

end Treewalk
