import Treewalk.Proofs.Machine.Conduct

/-!
Relations between machines that every task keeps, from where it begins to where it ends, however it ends. It is enough
that single moves keep them, that one may enter a block or a function and come back, and that methods may be copied.
A task that is asked for begins on a machine that is related to the one on which its own frame was entered.
-/

namespace Treewalk

/-- A relation that every task keeps. -/
class Durable (R : Machine → Machine → Prop) : Prop extends Lasting R where
  moves : ∀ {task m m'}, Task.Moves task m m' → R m m'
  block : ∀ {m w}, R m.inBlock w → R m (w.inFrame m.frame)
  entry : ∀ {m : Machine} {callee arguments e}, m.entered? callee arguments = some e → R m e.machine
  leave : ∀ {m : Machine} {callee arguments e w}, m.entered? callee arguments = some e → R (e.inside arguments) w →
    R e.machine (Entry.leave (w.inFrame e.machine.frame))
  copy : ∀ {m : Machine} {id classId}, R m (m.copyLineage id classId)

/-- A relation that every task keeps at each single step, into blocks and functions and out of them too. -/
class Stepwise (R : Machine → Machine → Prop) : Prop extends Lasting R where
  moves : ∀ {task m m'}, Task.Moves task m m' → R m m'
  block : ∀ m : Machine, R m m.inBlock
  entry : ∀ {m : Machine} {callee arguments e}, m.entered? callee arguments = some e → R m e.machine
  inside : ∀ (e : Entry) arguments, R e.machine (e.inside arguments)
  aside : ∀ (m : Machine) frame depth, R m { m with frame, depth }
  flush : ∀ m : Machine, R m { m with sink := m.sink.flush.1 }
  copy : ∀ {m : Machine} {id classId}, R m (m.copyLineage id classId)

instance {R : Machine → Machine → Prop} [Stepwise R] : Durable R where
  moves := Stepwise.moves
  block {m w} h := Lasting.trans (Lasting.trans (Stepwise.block m) h) (Stepwise.aside w m.frame w.depth)
  entry := Stepwise.entry
  leave {_ _ arguments e w} _ h :=
    Lasting.trans (Lasting.trans (Stepwise.inside e arguments) h) (Stepwise.aside w e.machine.frame (w.depth - 1))
  copy := Stepwise.copy

/-- The second task, on the second machine, is one that the first one may ask for, in a frame of its own or in a new
one. -/
inductive Task.Hands (R : Machine → Machine → Prop) : Task → Machine → Task → Machine → Prop where
  | part {task m t n} : task.Part t → R m n → Hands R task m t n
  | block {body m s n} : s ∈ body → R m.inBlock n → Hands R (.execute (.block body)) m (.execute s) n
  | call {callee arguments line m e s n} : m.entered? callee arguments = some e → ¬depthLimit ≤ m.depth →
      s ∈ e.function.routine.body → R (e.inside arguments) n →
      Hands R (.invoke callee arguments line) m (.execute s) n

theorem receiver_cases (f : Closure) (m : Machine) :
    (∃ value, m.heap.getOwn? f.frame receiverName = some value ∧ Evaluation.receiver f m = .done value m) ∨
      m.heap.getOwn? f.frame receiverName = none ∧
        Evaluation.receiver f m = .stopped (.failed ⟨f.routine.name.line, .undefinedVariable receiverName⟩) m := by
  have hlook : Evaluation.receiver f m =
      Run.orFail (m.heap.getOwn? f.frame receiverName) f.routine.name.line (.undefinedVariable receiverName) m := rfl
  rw [hlook]
  cases m.heap.getOwn? f.frame receiverName with
  | none => exact Or.inr ⟨rfl, rfl⟩
  | some value => exact Or.inl ⟨value, rfl, rfl⟩

theorem Closure.machine_conclude (f : Closure) (o : Outcome Unit) : (f.conclude o).machine = o.machine := by
  cases o with
  | done u m =>
    simp only [conclude]
    by_cases hf : f.isInitializer
    · rw [if_pos hf]
      rcases receiver_cases f m with ⟨value, -, h⟩ | ⟨-, h⟩ <;> rw [h] <;> rfl
    · simp only [if_neg hf]
      rfl
  | stopped s m => cases s <;> rfl

theorem Outcome.machine_onMachine {α : Type} (g : Machine → Machine) (o : Outcome α) :
    (o.onMachine g).machine = g o.machine := by cases o <;> rfl

/-- The end of a call is the end of its function in the frame of the caller, and behind it methods may be copied. -/
theorem Entry.machine_finish (e : Entry) (o : Outcome Unit) :
    (e.finish o).machine = leave (o.machine.inFrame e.machine.frame) ∨
      ∃ id classId, (e.finish o).machine = (leave (o.machine.inFrame e.machine.frame)).copyLineage id classId := by
  have hinner : ((e.function.conclude (o.onMachine (Machine.inFrame e.machine.frame))).onMachine leave).machine =
      leave (o.machine.inFrame e.machine.frame) := by
    rw [Outcome.machine_onMachine, Closure.machine_conclude, Outcome.machine_onMachine]
  unfold finish
  cases hc : (e.function.conclude (o.onMachine (Machine.inFrame e.machine.frame))).onMachine leave with
  | stopped s w =>
    rw [hc] at hinner
    exact Or.inl hinner
  | done v w =>
    rw [hc] at hinner
    have hw : w = leave (o.machine.inFrame e.machine.frame) := hinner
    simp only [complete]
    cases e.made with
    | none => exact Or.inl hw
    | some made => exact Or.inr ⟨made.1, made.2, by rw [hw]; rfl⟩

theorem asks_block {p : Performer} {rounds : Nat} {body : List Stmt} {m : Machine} {t : Task} {n : Machine}
    (h : Asks (fun p => Evaluation.performOver p rounds (.execute (.block body)) m) p t n) :
    Asks (fun p => Evaluation.executeAll p body m.inBlock) p t n := by
  have heq := fun p => execution_block p rounds body m
  exact Asks.of_map (g := Outcome.onMachine (Machine.inFrame m.frame)) (funext heq ▸ h)

theorem steers_block {p : Performer} {rounds : Nat} {body : List Stmt} {m : Machine} {t : Task} {n : Machine}
    (h : Steers (fun p => Evaluation.executeAll p body m.inBlock) p t n) :
    Steers (fun p => Evaluation.performOver p rounds (.execute (.block body)) m) p t n := by
  have heq := fun p => execution_block p rounds body m
  have hmap := h.map (Outcome.onMachine (Machine.inFrame m.frame)) fun w => ⟨_, rfl, rfl⟩
  exact (funext heq).symm ▸ hmap

section Calls
variable {callee : Value} {arguments : List Value} {m : Machine} {e : Entry}
  (he : m.entered? callee arguments = some e) {p : Performer} {rounds line : Nat} {t : Task} {n : Machine}
include he

theorem not_asks_refused (hd : depthLimit ≤ m.depth) :
    ¬Asks (fun p => Evaluation.performOver p rounds (.invoke callee arguments line) m) p t n := by
  have heq := fun p => (invocation_of_entry p line he).trans (if_pos hd)
  exact fun h => Course.not_asks_const (funext heq ▸ h)

theorem asks_entered (hd : ¬depthLimit ≤ m.depth)
    (h : Asks (fun p => Evaluation.performOver p rounds (.invoke callee arguments line) m) p t n) :
    Asks (fun p => Evaluation.executeAll p e.function.routine.body (e.inside arguments)) p t n := by
  have heq := fun p => (invocation_of_entry p line he).trans (if_neg hd)
  exact Asks.of_map (g := e.finish) (funext heq ▸ h)

theorem steers_entered (hd : ¬depthLimit ≤ m.depth)
    (h : Steers (fun p => Evaluation.executeAll p e.function.routine.body (e.inside arguments)) p t n) :
    Steers (fun p => Evaluation.performOver p rounds (.invoke callee arguments line) m) p t n := by
  have heq := fun p => (invocation_of_entry p line he).trans (if_neg hd)
  have hmap := h.map e.finish fun w => ⟨_, rfl, rfl⟩
  exact (funext heq).symm ▸ hmap

end Calls

section
variable {R : Machine → Machine → Prop} [Durable R] {p : Performer} (hp : ∀ t n, R n (p t n).machine)
include hp

/-- Answers that keep a relation make a course that moves within it keep it, and all that it asks for is within it. -/
theorem Course.durable {α : Type} {c : Conduct} {m : Machine} {F : Performer → Outcome α} (h : Course c m F)
    (hmoves : ∀ n n', c.moves n n' → R n n') :
    R m (F p).machine ∧ ∀ t n, Asks F p t n → c.asks t ∧ R m n :=
  h.maintain p (Lasting.refl m) (fun n n' hn hm => Lasting.trans hm (hmoves n n' hn))
    fun t n _ hn _ => Lasting.trans hn (hp t n)

theorem performOver_durable (rounds : Nat) (task : Task) (m : Machine) :
    R m (Evaluation.performOver p rounds task m).machine := by
  cases task.manner rounds m with
  | plain h => exact (h.durable hp fun _ _ => Durable.moves).1
  | @block body =>
    show R m (Evaluation.execution p rounds (.block body) m).machine
    rw [execution_block, Outcome.machine_onMachine]
    exact Durable.block ((course_body body m.inBlock).durable hp nofun).1
  | @refused callee arguments line _ e he hd =>
    show R m (Evaluation.invocation p callee arguments line m).machine
    rw [invocation_of_entry p line he, if_pos hd]
    exact Durable.entry he
  | @entered callee arguments line _ e he hd =>
    show R m (Evaluation.invocation p callee arguments line m).machine
    rw [invocation_of_entry p line he, if_neg hd]
    have hbody := ((course_body e.function.routine.body (e.inside arguments)).durable hp nofun).1
    have hleave := Lasting.trans (Durable.entry he) (Durable.leave he hbody)
    rcases e.machine_finish (Evaluation.executeAll p e.function.routine.body (e.inside arguments)) with h | ⟨id, c, h⟩
    · rw [h]
      exact hleave
    · rw [h]
      exact Lasting.trans hleave Durable.copy

theorem hands_of_asks {rounds : Nat} {task t : Task} {m n : Machine}
    (h : Asks (fun p => Evaluation.performOver p rounds task m) p t n) : task.Hands R m t n := by
  cases task.manner rounds m with
  | plain hcourse =>
    obtain ⟨ht, hn⟩ := (hcourse.durable hp fun _ _ => Durable.moves).2 t n h
    exact .part ht hn
  | @block body =>
    obtain ⟨⟨s, hs, rfl⟩, hn⟩ := ((course_body body m.inBlock).durable hp nofun).2 t n (asks_block h)
    exact .block hs hn
  | refused he hd => exact absurd h (not_asks_refused he hd)
  | @entered callee arguments line _ e he hd =>
    have hbody := (course_body e.function.routine.body (e.inside arguments)).durable hp nofun
    obtain ⟨⟨s, hs, rfl⟩, hn⟩ := hbody.2 t n (asks_entered he hd h)
    exact .call he hd hs hn

end

/-- However a task ends, the machine that it leaves is related to the one on which it began. -/
theorem perform_durable (R : Machine → Machine → Prop) [Durable R] (steps : Nat) (task : Task) (m : Machine) :
    R m (perform steps task m).machine := by
  induction steps generalizing task m with
  | zero => exact Lasting.refl m
  | succ steps ih => exact performOver_durable ih steps task m

/-- What a task asks for is one of its parts, or a statement of the block or function that it enters. -/
theorem perform_hands (R : Machine → Machine → Prop) [Durable R] {steps : Nat} {task t : Task} {m n : Machine}
    (h : Asks (fun p => Evaluation.performOver p steps task m) (perform steps) t n) : task.Hands R m t n :=
  hands_of_asks (perform_durable R steps) h

/-! ### Frame and depth -/

/-- The machine is in the same frame, with as many running calls. -/
structure SameContext (m m' : Machine) : Prop where
  frame : m'.frame = m.frame
  depth : m'.depth = m.depth

/-- Of the machine that calls a function nothing but the heap has changed. -/
theorem Machine.entered?_heap {m : Machine} {callee : Value} {arguments : List Value} {e : Entry}
    (he : m.entered? callee arguments = some e) : ∃ heap, e.machine = { m with heap } := by
  rcases Machine.entered?_cases he with ⟨id, f, rfl, -, -, rfl⟩ | ⟨classId, method, rfl, -, -, rfl⟩
  · exact ⟨m.heap, rfl⟩
  · exact ⟨_, rfl⟩

theorem Machine.entered?_context {m : Machine} {callee : Value} {arguments : List Value} {e : Entry}
    (he : m.entered? callee arguments = some e) : SameContext m e.machine := by
  obtain ⟨heap, heq⟩ := Machine.entered?_heap he
  rw [heq]
  exact ⟨rfl, rfl⟩

instance : Durable SameContext where
  refl _ := ⟨rfl, rfl⟩
  trans h h' := ⟨h'.frame.trans h.frame, h'.depth.trans h.depth⟩
  moves h := by cases h <;> exact ⟨rfl, rfl⟩
  block h := ⟨rfl, h.depth⟩
  entry he := Machine.entered?_context he
  leave _ h := ⟨rfl, congrArg (· - 1) h.depth⟩
  copy := ⟨rfl, rfl⟩

end Treewalk
