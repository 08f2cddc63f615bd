import Treewalk.Proofs.Heap.Binding
import Treewalk.Proofs.Machine.Activities

/-!
The phrases that a machine runs. Every expression, statement and routine that is ever run stands in the program or in a
routine on the heap; so what holds at each node of the program and of the heap holds at each node that is run, and no task
fails with a fault that only other phrases have.
-/

namespace Treewalk

/-- `P` holds at each node of all functions and methods of the heap. -/
structure Heap.Upholds (P : Tree → Prop) (h : Heap) : Prop where
  closures : ∀ id f, h.closure? id = some f → (Tree.routine f.routine).Everywhere P
  methods : ∀ method, h.IsMethod method → (Tree.routine method.routine).Everywhere P

/-- `P` holds at each node of the phrase that is evaluated or run. -/
def Task.Upholds (P : Tree → Prop) : Task → Prop
  | .evaluate e => (Tree.expr e).Everywhere P
  | .execute s => (Tree.stmt s).Everywhere P
  | .invoke _ _ _ => True

variable {P : Tree → Prop} {h h' : Heap} {m : Machine}

/-! ### Single changes -/

namespace Heap.Upholds

variable (hh : h.Upholds P)
include hh

/-- A change of neither functions nor classes. -/
theorem of_eq (hclosures : h'.closures = h.closures) (hclasses : h'.classes = h.classes) : h'.Upholds P := by
  refine ⟨fun id f hf => ?_, fun method hm => ?_⟩
  · rw [closure?, hclosures] at hf
    exact hh.closures id f hf
  · obtain ⟨id, c, name, hc, hentry⟩ := hm
    rw [class?, hclasses] at hc
    exact hh.methods method ⟨id, c, name, hc, hentry⟩

theorem addClosure {f : Closure} (hf : (Tree.routine f.routine).Everywhere P) : (h.addClosure f).2.Upholds P := by
  refine ⟨fun id g hg => ?_, hh.methods⟩
  rw [closure?_addClosure] at hg
  split at hg
  · cases hg
    exact hf
  · exact hh.closures id g hg

theorem addClass {c : Class} (hc : ∀ entry ∈ c.methods.entries, (Tree.routine entry.2.routine).Everywhere P) :
    (h.addClass c).2.Upholds P := by
  refine ⟨hh.closures, fun method hm => ?_⟩
  rcases isMethod_addClass hm with hm | ⟨name, hentry⟩
  · exact hh.methods method hm
  · exact hc (name, method) hentry

theorem bindValue {method : Closure} (hm : (Tree.routine method.routine).Everywhere P) (receiver : InstanceId) :
    (h.bindValue method receiver).2.Upholds P :=
  (hh.of_eq rfl rfl : (h.bind method receiver).2.Upholds P).addClosure hm

theorem copyLineage (id : InstanceId) (classId : ClassId) : (h.copyLineage id classId).Upholds P := by
  rw [copyLineage_eq]
  refine List.foldlRecOn _ _ hh fun h' hh' entry hentry => ?_
  have hbound := hh'.bindValue (hh.methods _ (isMethod_of_mem_copies hentry)) id
  exact hbound.of_eq rfl rfl

end Heap.Upholds

theorem Evaluation.upholds_methodTable {frame : FrameId} {methods : List Routine}
    (hm : ∀ r ∈ methods, (Tree.routine r).Everywhere P) :
    ∀ entry ∈ (methodTable frame methods).entries, (Tree.routine entry.2.routine).Everywhere P := by
  intro entry hentry
  rcases Table.mem_putAll hentry with hmem | hmem
  · obtain ⟨routine, hroutine, rfl⟩ := List.mem_map.mp hmem
    exact hm routine hroutine
  · cases hmem

theorem Task.Moves.upholds {task : Task} {m' : Machine} (hmove : task.Moves m m') (ht : task.Upholds P)
    (hm : m.heap.Upholds P) : m'.heap.Upholds P := by
  cases hmove with
  | lambda => exact hm.addClosure (ht.made (List.mem_singleton_self _))
  | method hproperty => exact hm.bindValue (hm.methods _ (Heap.isMethod_of_property? hproperty)) _
  | function => exact (hm.addClosure (ht.declared (List.mem_singleton_self _))).of_eq rfl rfl
  | @classDecl name superclass methods parent =>
    have hadded := hm.addClass (c := ⟨name.lexeme, parent, Evaluation.methodTable m.frame methods⟩)
      (Evaluation.upholds_methodTable fun r hr => ht.declared hr)
    exact hadded.of_eq rfl rfl
  | @made classId =>
    have hmade : (m.heap.addInstance { classId }).2.Upholds P := hm.of_eq rfl rfl
    exact hmade.copyLineage _ _
  | _ => exact hm.of_eq rfl rfl

theorem Task.Part.upholds {task t : Task} (hpart : task.Part t) (ht : task.Upholds P) : t.Upholds P := by
  cases hpart with
  | operand hmem => exact ht.operand hmem
  | call => trivial
  | expression hmem => exact ht.expression hmem
  | branch hmem => exact ht.branch hmem

/-- The function that is entered is one of the heap. -/
theorem Heap.Upholds.entered? (hm : m.heap.Upholds P) {callee : Value} {arguments : List Value} {e : Entry}
    (he : m.entered? callee arguments = some e) :
    e.machine.heap.Upholds P ∧ (Tree.routine e.function.routine).Everywhere P := by
  rcases Machine.entered?_cases he with ⟨id, f, rfl, hf, -, rfl⟩ | ⟨classId, method, rfl, -, hmethod, rfl⟩
  · exact ⟨hm, hm.closures id f hf⟩
  · exact ⟨hm.of_eq rfl rfl, hm.methods method (isMethod_of_findMethod? hmethod)⟩

/-! ### Runs -/

section
variable {p : Performer} (hp : ∀ t n, n.heap.Upholds P → t.Upholds P → (p t n).machine.heap.Upholds P)
include hp

theorem Course.upholds {α : Type} {c : Conduct} {F : Performer → Outcome α} (h : Course c m F) (hm : m.heap.Upholds P)
    (hmoves : ∀ n n', c.moves n n' → n.heap.Upholds P → n'.heap.Upholds P) (hasks : ∀ t, c.asks t → t.Upholds P) :
    (F p).machine.heap.Upholds P ∧ ∀ t n, Asks F p t n → n.heap.Upholds P ∧ t.Upholds P := by
  obtain ⟨hends, hasked⟩ := h.maintain (I := fun n => n.heap.Upholds P) p hm hmoves
    fun t n ht hn _ => hp t n hn (hasks t ht)
  refine ⟨hends, fun t n ha => ?_⟩
  obtain ⟨ht, hn⟩ := hasked t n ha
  exact ⟨hn, hasks t ht⟩

theorem upholds_body {body : List Stmt} (hm : m.heap.Upholds P) (hbody : ∀ s ∈ body, (Tree.stmt s).Everywhere P) :
    (Evaluation.executeAll p body m).machine.heap.Upholds P ∧
      ∀ t n, Asks (fun p => Evaluation.executeAll p body m) p t n → n.heap.Upholds P ∧ t.Upholds P := by
  refine (course_body body m).upholds hp hm nofun ?_
  rintro t ⟨s, hs, rfl⟩
  exact hbody s hs

theorem performOver_upholds (rounds : Nat) {task : Task} (hm : m.heap.Upholds P) (ht : task.Upholds P) :
    (Evaluation.performOver p rounds task m).machine.heap.Upholds P ∧
      ∀ t n, Asks (fun p => Evaluation.performOver p rounds task m) p t n → n.heap.Upholds P ∧ t.Upholds P := by
  cases task.manner rounds m with
  | plain hcourse => exact hcourse.upholds hp hm (fun n n' hmove => hmove.upholds ht) fun t hpart => hpart.upholds ht
  | @block body =>
    obtain ⟨hends, hasks⟩ := upholds_body hp (m := m.inBlock) (hm.of_eq rfl rfl) fun s hs => ht.inner hs
    refine ⟨?_, fun t n hasked => hasks t n (asks_block hasked)⟩
    show (Evaluation.execution p rounds (.block body) m).machine.heap.Upholds P
    rw [execution_block, Outcome.machine_onMachine]
    exact hends
  | @refused callee arguments line _ e he hd =>
    refine ⟨?_, fun t n hasked => absurd hasked (not_asks_refused he hd)⟩
    show (Evaluation.invocation p callee arguments line m).machine.heap.Upholds P
    rw [invocation_of_entry p line he, if_pos hd]
    exact (hm.entered? he).1
  | @entered callee arguments line _ e he hd =>
    obtain ⟨hentered, hfunction⟩ := hm.entered? he
    obtain ⟨hends, hasks⟩ := upholds_body hp (m := e.inside arguments) (hentered.of_eq rfl rfl) fun s hs =>
      hfunction.body hs
    refine ⟨?_, fun t n hasked => hasks t n (asks_entered he hd hasked)⟩
    show (Evaluation.invocation p callee arguments line m).machine.heap.Upholds P
    rw [invocation_of_entry p line he, if_neg hd]
    rcases e.machine_finish (Evaluation.executeAll p e.function.routine.body (e.inside arguments)) with
      h | ⟨id, classId, h⟩
    · rw [h]
      exact hends
    · rw [h]
      exact hends.copyLineage id classId

end

theorem perform_upholds (steps : Nat) {task : Task} (hm : m.heap.Upholds P) (ht : task.Upholds P) :
    (perform steps task m).machine.heap.Upholds P := by
  induction steps generalizing task m with
  | zero => exact hm
  | succ steps ih => exact (performOver_upholds (fun _ _ => ih) steps hm ht).1

theorem Activity.AsksFor.upholds {a b : Activity} (h : a.AsksFor b) (hm : a.machine.heap.Upholds P)
    (ht : a.task.Upholds P) : b.machine.heap.Upholds P ∧ b.task.Upholds P := by
  cases h with
  | intro hasks => exact (performOver_upholds (fun _ _ => perform_upholds _) _ hm ht).2 _ _ hasks

namespace Machine

variable {steps : Nat} {program : List Stmt} (hm : m.heap.Upholds P) (hp : ∀ s ∈ program, (Tree.stmt s).Everywhere P)
include hm hp

theorem Underway.upholds {a : Activity} {outer : List Activity} (h : m.Underway steps program (a :: outer)) :
    a.machine.heap.Upholds P ∧ a.task.Upholds P := by
  generalize hstack : a :: outer = stack at h
  induction h generalizing a outer with
  | @here s =>
    cases hstack
    exact ⟨hm, hp s List.mem_cons_self⟩
  | @later s rest m m₁ _ hnext _ ih =>
    have hleft : (perform steps (.execute s) m).machine.heap.Upholds P := perform_upholds steps hm (hp s List.mem_cons_self)
    rw [machine_of_next? hnext] at hleft
    exact ih hleft (fun x hx => hp x (List.mem_cons_of_mem s hx)) hstack
  | within _ hasks ih =>
    cases hstack
    obtain ⟨hheap, htask⟩ := ih hm hp rfl
    exact hasks.upholds hheap htask

theorem upholds_interpret : (m.interpret steps program).2.heap.Upholds P := by
  induction program generalizing m with
  | nil =>
    rw [interpret_nil]
    exact hm
  | cons s rest ih =>
    have hleft : (perform steps (.execute s) m).machine.heap.Upholds P := perform_upholds steps hm (hp s List.mem_cons_self)
    rcases interpret_cons steps s rest m with ⟨m₁, hnext, heq⟩ | ⟨-, heq | heq⟩
    · rw [machine_of_next? hnext] at hleft
      rw [heq]
      exact ih hleft fun x hx => hp x (List.mem_cons_of_mem s hx)
    · rw [heq]
      exact hleft
    · rw [heq]
      exact hleft

end Machine

/-! ### Faults -/

/-- A task fails because too many calls are running, or with a fault of a task whose phrases uphold `P` too. -/
theorem perform_fault {steps : Nat} {task : Task} {error : RuntimeError} {w : Machine} (hm : m.heap.Upholds P)
    (ht : task.Upholds P) (h : perform steps task m = .stopped (.failed error) w) :
    error.fault = .tooDeep ∨ ∃ t : Task, t.Upholds P ∧ t.Faults error.fault := by
  induction steps generalizing task m w with
  | zero => cases h
  | succ steps ih =>
    rcases perform_origin h with hstops | ⟨callee, arguments, line, e, -, -, -, heq⟩ | ⟨t, n, w', hasks, -, hrun⟩
    · cases hstops with
      | failed hfaults => exact Or.inr ⟨task, ht, hfaults⟩
    · cases heq
      exact Or.inl rfl
    · obtain ⟨hn, ht⟩ := (performOver_upholds (fun _ _ => perform_upholds _) _ hm ht).2 t n hasks
      exact ih hn ht hrun

/-- A program fails where one of its statements does. -/
theorem Machine.interpret_failed {steps : Nat} {program : List Stmt} {error : RuntimeError}
    (h : (m.interpret steps program).1 = .failed error) :
    ∃ a w, m.Underway steps program [a] ∧ a.outcome = .stopped (.failed error) w := by
  induction program generalizing m with
  | nil =>
    unfold interpret at h
    split at h <;> cases h
  | cons s rest ih =>
    rcases interpret_cases steps s rest m with ⟨m₁, hnext, heq⟩ | ⟨e, w, hrun, heq⟩ | ⟨w, -, heq⟩
    · rw [heq] at h
      obtain ⟨a, w, hunder, hfailed⟩ := ih h
      exact ⟨a, w, .later hnext hunder, hfailed⟩
    · rw [heq] at h
      cases h
      exact ⟨_, w, .here, hrun⟩
    · rw [heq] at h
      cases h

end Treewalk
