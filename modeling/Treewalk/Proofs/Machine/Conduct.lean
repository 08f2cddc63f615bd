import Treewalk.Proofs.Heap.Growth
import Treewalk.Proofs.Machine.Course
import Treewalk.Proofs.Tree.Parts

/-!
What each task may do by itself, and how it is made up of others. All tasks but blocks and calls of functions keep to
their conduct from the machine on which they begin; a block and a function that is entered run statements on a machine
of their own, and come back from it.
-/

namespace Treewalk

/-- The machine with all methods of a class copied into the fields of an instance. -/
def Machine.copyLineage (m : Machine) (id : InstanceId) (classId : ClassId) : Machine :=
  { m with heap := m.heap.copyLineage id classId }

namespace Task

/-- The second task may be asked for by the first one, in the frame of the first one. -/
inductive Part : Task → Task → Prop where
  | operand {e part} : part ∈ e.parts → Part (.evaluate e) (.evaluate part)
  | call {callee paren arguments f values} :
      Part (.evaluate (.call callee paren arguments)) (.invoke f values paren.line)
  | expression {s e} : e ∈ s.expressions → Part (.execute s) (.evaluate e)
  | branch {s part} : part ∈ s.branches → Part (.execute s) (.execute part)

/-- The task may turn the first machine into the second one, between the tasks that it asks for. -/
inductive Moves : Task → Machine → Machine → Prop where
  | assign {id name e frame value m} : m.target? id name.lexeme = some frame →
      Moves (.evaluate (.assign id name e)) m (m.define frame name.lexeme value)
  | lambda {routine m} :
      Moves (.evaluate (.lambda routine)) m { m with heap := (m.heap.addClosure ⟨routine, m.frame, false⟩).2 }
  | method {object name id method m} : m.heap.property? id name.lexeme = some (.method method) →
      Moves (.evaluate (.get object name)) m { m with heap := (m.heap.bindValue method id).2 }
  | field {object name e id value m} :
      Moves (.evaluate (.set object name e)) m { m with heap := m.heap.setField id name.lexeme value }
  | print {keyword values text m} : Moves (.execute (.print keyword values)) m { m with sink := (m.sink.writeLine text).1 }
  | binding {name e value m} : Moves (.execute (.varDecl name e)) m (m.define m.frame name.lexeme value)
  | function {routine m} : Moves (.execute (.function routine)) m
      ({ m with heap := (m.heap.addClosure ⟨routine, m.frame, false⟩).2 }.define m.frame routine.name.lexeme
        (.closure (m.heap.addClosure ⟨routine, m.frame, false⟩).1))
  | classDecl {name superclass methods parent m} : Moves (.execute (.classDecl name superclass methods)) m
      ({ m with heap := (m.heap.addClass ⟨name.lexeme, parent, Evaluation.methodTable m.frame methods⟩).2 }.define
        m.frame name.lexeme
        (.classValue (m.heap.addClass ⟨name.lexeme, parent, Evaluation.methodTable m.frame methods⟩).1))
  | library {keyword path native m} :
      Library.lookup? (LibraryPath.ofText path.lexeme).namespaceText (LibraryPath.ofText path.lexeme).leaf =
        some native →
      Moves (.execute (.useLibrary keyword path)) m
        (m.define globalFrame (LibraryPath.ofText path.lexeme).leaf (.native native))
  | notice {keyword path m} :
      Library.lookup? (LibraryPath.ofText path.lexeme).namespaceText (LibraryPath.ofText path.lexeme).leaf = none →
      Moves (.execute (.useLibrary keyword path)) m { m with notices := m.notices ++ [⟨path.lexeme, path.line⟩] }
  | clock {f arguments line clock m} : Moves (.invoke (.native f) arguments line) m { m with clock }
  | word {f arguments line m} : f.primitive = .readWord →
      Moves (.invoke (.native f) arguments line) m { m with input := m.input.takeWord.2 }
  | made {classId arguments line m} : m.heap.findMethod? classId initializerName = none →
      Moves (.invoke (.classValue classId) arguments line) m
        ({ m with heap := (m.heap.addInstance { classId }).2 }.copyLineage (m.heap.addInstance { classId }).1 classId)

/-- The task may fail with the fault by itself. An operator fails as such only if there is none of its kind, and that
too many calls are running is not the fault of a task. -/
def Faults (task : Task) : RuntimeFault → Prop
  | .tooDeep => False
  | .invalidUnary _ => ∃ operator right, task = .evaluate (.unary operator right) ∧ ¬operator.IsOneOf Operator.signs
  | .invalidBinary _ =>
    ∃ left operator right, task = .evaluate (.binary left operator right) ∧ ¬operator.IsOneOf Operator.operations
  | _ => True

/-- The task may stop with the signal by itself. -/
inductive Stops : Task → Signal → Prop where
  | failed {task error} : task.Faults error.fault → Stops task (.failed error)
  | broke {keyword} : Stops (.execute (.breakLoop keyword)) .broke
  | returned {keyword e value} : Stops (.execute (.returnValue keyword e)) (.returned value)
  | suspended {condition body} : Stops (.execute (.whileLoop condition body)) .suspended

/-- A loop ends where its body breaks it, and a call where the body of its function returns. -/
inductive Catches : Task → Task → Signal → Prop where
  | broke {condition body} : Catches (.execute (.whileLoop condition body)) (.execute body) .broke
  | returned {callee arguments line s value} : Catches (.invoke callee arguments line) (.execute s) (.returned value)

/-- What a task may do. -/
def conduct (task : Task) : Conduct where
  moves := task.Moves
  asks := task.Part
  stops := task.Stops
  catches := task.Catches
  uncaught := nofun

end Task

/-- Statements that run in turn do nothing by themselves. -/
def Stmt.bodyConduct (body : List Stmt) : Conduct where
  moves _ _ := False
  asks task := ∃ s ∈ body, task = .execute s
  stops _ := False
  catches _ _ := False
  uncaught _ h := h

theorem Run.look_bind {α β : Type} (f : Machine → α) (k : α → Run β) (m : Machine) :
    (Run.look f >>= k) m = k (f m) m := rfl

theorem Run.onHeap_bind {α β : Type} (f : Heap → α × Heap) (k : α → Run β) (m : Machine) :
    (Run.onHeap f >>= k) m = k (f m.heap).1 { m with heap := (f m.heap).2 } := rfl

/-! ### Courses of small runs -/

namespace Course

variable {c : Conduct} {α : Type} {m : Machine}

theorem failed {e : Task} (line : Nat) {fault : RuntimeFault} (h : e.Faults fault) :
    Course (α := α) e.conduct m fun _ => Run.fail line fault m := .stop (.failed h)

theorem lifted {e : Task} {result : Except RuntimeFault α} (line : Nat)
    (h : ∀ fault, result = .error fault → e.Faults fault) : Course e.conduct m fun _ => Run.lift result line m := by
  cases result with
  | ok a => exact .done a
  | error fault => exact failed line (h fault rfl)

theorem evaluate {e : Expr} (h : c.asks (.evaluate e)) (hc : ∀ t s, ¬c.catches t s) :
    Course c m fun p => Evaluation.evaluate p e m := ask_only h hc

theorem execute {s : Stmt} (h : c.asks (.execute s)) (hc : ∀ t s, ¬c.catches t s) :
    Course c m fun p => Evaluation.execute p s m := ask_only h hc

theorem evaluateAll {es : List Expr} (h : ∀ e ∈ es, c.asks (.evaluate e)) (hc : ∀ t s, ¬c.catches t s) :
    Course c m fun p => Evaluation.evaluateAll p es m := by
  induction es generalizing m with
  | nil => exact .done []
  | cons e es ih =>
    refine bind hc (evaluate (h e List.mem_cons_self) hc) fun value n => ?_
    exact bind hc (ih fun e he => h e (List.mem_cons_of_mem _ he)) fun values n => .done (value :: values)

theorem executeAll {body : List Stmt} (h : ∀ s ∈ body, c.asks (.execute s)) (hc : ∀ t s, ¬c.catches t s) :
    Course c m fun p => Evaluation.executeAll p body m := by
  induction body generalizing m with
  | nil => exact .done ()
  | cons s rest ih =>
    simp only [Evaluation.executeAll_cons]
    refine bind hc (execute (h s List.mem_cons_self) hc) fun _ n => ?_
    exact ih fun s hs => h s (List.mem_cons_of_mem _ hs)

end Course

/-! ### Expressions -/

theorem Operator.unary_faults {operator : Token} {right : Expr} {value : Value} {fault : RuntimeFault}
    (h : Operator.unary operator value = .error fault) : (Task.evaluate (.unary operator right)).Faults fault := by
  unfold Operator.unary at h
  split at h
  · cases value <;> cases h <;> trivial
  · cases h
  · next hminus hbang =>
    cases h
    refine ⟨operator, right, rfl, fun hsign => ?_⟩
    obtain ⟨s, hs, hkind⟩ := Token.isOneOf_iff.mp hsign
    simp only [signs, List.mem_cons, List.not_mem_nil, or_false] at hs
    rcases hs with rfl | rfl
    · exact hbang hkind
    · exact hminus hkind

theorem Operator.numeric_faults {f : Float → Float → Value} {left right : Value} {fault : RuntimeFault}
    (h : Operator.numeric f left right = .error fault) : fault = .operandsNotNumbers := by
  unfold Operator.numeric at h
  split at h <;> cases h
  rfl

theorem Operator.binary_faults {left right : Expr} {operator : Token} {a b : Value} {fault : RuntimeFault}
    (h : Operator.binary operator a b = .error fault) :
    (Task.evaluate (.binary left operator right)).Faults fault := by
  have hnumeric : ∀ f, Operator.numeric f a b = .error fault →
      (Task.evaluate (.binary left operator right)).Faults fault := by
    intro f hf
    rw [numeric_faults hf]
    trivial
  unfold Operator.binary at h
  split at h
  case h_11 =>
    cases h
    refine ⟨left, operator, right, rfl, fun hoperation => ?_⟩
    obtain ⟨s, hs, hkind⟩ := Token.isOneOf_iff.mp hoperation
    simp only [operations, List.mem_cons, List.not_mem_nil, or_false] at hs
    rcases hs with rfl | rfl | rfl | rfl | rfl | rfl | rfl | rfl | rfl | rfl <;> contradiction
  · unfold Operator.add at h
    split at h <;> cases h
    trivial
  all_goals first | exact hnumeric _ h | cases h

theorem Operator.item_faults {task : Task} {name : String} {target index : Value} {fault : RuntimeFault}
    (h : Operator.item name target index = .error fault) : task.Faults fault := by
  unfold Operator.item at h
  repeat' split at h
  all_goals cases h
  all_goals trivial

theorem Task.evaluate_catches_nothing (e : Expr) (t : Task) (s : Signal) :
    ¬(Task.evaluate e).conduct.catches t s := nofun

theorem Course.reference (task : Task) (id : NodeId) (name : Token) (m : Machine) :
    Course task.conduct m fun _ => Run.lookUp id name m := by
  unfold Run.lookUp
  split
  · exact .done _
  · exact .failed name.line trivial

theorem course_evaluation (e : Expr) (m : Machine) :
    Course (Task.evaluate e).conduct m fun p => Evaluation.evaluation p e m := by
  have hc := Task.evaluate_catches_nothing e
  have hpart : ∀ part ∈ e.parts, ∀ n, Course (Task.evaluate e).conduct n fun p => Evaluation.evaluate p part n :=
    fun part h n => .evaluate (.operand h) hc
  cases e with
  | literal value => exact .done _
  | array bracket items => exact .done _
  | grouping inner => exact hpart inner (by simp [Expr.parts]) m
  | unary operator right =>
    refine .bind hc (hpart right (by simp [Expr.parts]) m) fun value n => ?_
    exact .lifted operator.line fun _ => Operator.unary_faults
  | binary left operator right =>
    refine .bind hc (hpart left (by simp [Expr.parts]) m) fun a n => ?_
    refine .bind hc (hpart right (by simp [Expr.parts]) n) fun b n' => ?_
    exact .lifted operator.line fun _ => Operator.binary_faults
  | logical left operator right =>
    refine .bind hc (hpart left (by simp [Expr.parts]) m) fun a n => ?_
    by_cases hd : Operator.decides operator a
    · simp only [if_pos hd]
      exact .done a
    · simp only [if_neg hd]
      exact hpart right (by simp [Expr.parts]) n
  | ternary condition question yes no =>
    refine .bind hc (hpart condition (by simp [Expr.parts]) m) fun c n => ?_
    by_cases ht : c.truthy
    · simp only [if_pos ht]
      exact hpart yes (by simp [Expr.parts]) n
    · simp only [if_neg ht]
      exact hpart no (by simp [Expr.parts]) n
  | var id name => exact .reference _ id name m
  | this id keyword => exact .reference _ id keyword m
  | global name =>
    refine .bind (r := fun _ => Run.look _) hc (.done _) fun value? n => ?_
    cases value? with
    | none => exact .failed name.line trivial
    | some value => exact .done value
  | assign id name value =>
    refine .bind hc (hpart value (by simp [Expr.parts]) m) fun v n => ?_
    refine .bind (r := fun _ => Run.assign id name v) hc ?_ fun _ n' => .done v
    unfold Run.assign
    split
    · next frame hframe => exact .move_done (Task.Moves.assign hframe) ()
    · exact .failed name.line trivial
  | call callee paren arguments =>
    refine .bind hc (hpart callee (by simp [Expr.parts]) m) fun f n => ?_
    refine .bind hc (.evaluateAll (fun e he => .operand (List.mem_cons_of_mem _ he)) hc) fun values n' => ?_
    exact .ask_only .call hc
  | lambda routine => exact .move_done Task.Moves.lambda _
  | get object name =>
    refine .bind hc (hpart object (by simp [Expr.parts]) m) fun v n => ?_
    cases v with
    | object id =>
      cases hp : n.heap.property? id name.lexeme with
      | none =>
        simp only [Run.property, Run.look_bind, hp]
        exact .failed name.line trivial
      | some property =>
        cases property with
        | field value =>
          simp only [Run.property, Run.look_bind, hp]
          exact .done value
        | method method =>
          simp only [Run.property, Run.look_bind, hp]
          exact .move_done (Task.Moves.method hp) _
    | _ => exact .failed name.line trivial
  | set object name value =>
    refine .bind hc (hpart object (by simp [Expr.parts]) m) fun v n => ?_
    cases v with
    | object id =>
      refine .bind hc (hpart value (by simp [Expr.parts]) n) fun v n' => ?_
      exact .move_done Task.Moves.field v
    | _ => exact .failed name.line trivial
  | subscript id name index =>
    refine .bind (r := fun _ => Run.lookUp id name) hc (.reference _ id name m) fun target n => ?_
    refine .bind hc (hpart index (by simp [Expr.parts]) n) fun position n' => ?_
    exact .lifted name.line fun _ => Operator.item_faults

/-! ### Statements -/

/-- Behind its condition a loop goes on or ends. -/
def Run.afterTest (round : Run Unit) : Outcome Value → Outcome Unit
  | .done value n => if value.truthy then round n else .done () n
  | .stopped s n => .stopped s n

/-- Behind its body a loop goes on, and where the body breaks it, it ends. -/
def Run.afterBody (loop : Run Unit) : Outcome Unit → Outcome Unit
  | .done _ n => loop n
  | .stopped .broke n => .done () n
  | .stopped s n => .stopped s n

theorem Run.repeatWhile_succ (test : Run Value) (body : Run Unit) (rounds : Nat) (m : Machine) :
    repeatWhile (Value.truthy <$> test) body (rounds + 1) m =
      afterTest (fun n => afterBody (repeatWhile (Value.truthy <$> test) body rounds) (body n)) (test m) := by
  have hmap : (Value.truthy <$> test) m = match test m with
      | .done v n => .done v.truthy n
      | .stopped s n => .stopped s n := by
    show Run.bind test (fun v => Run.pure v.truthy) m = _
    unfold Run.bind
    cases test m <;> rfl
  simp only [repeatWhile, hmap]
  cases test m with
  | stopped s n => rfl
  | done v n =>
    by_cases hv : v.truthy
    · simp only [hv, afterTest, if_true]
      cases body n with
      | done u n' => rfl
      | stopped s n' => cases s <;> rfl
    · simp [hv, afterTest]

/-- A loop asks for its condition and its body in turn, and ends where the body breaks it. -/
theorem course_loop (condition : Expr) (body : Stmt) (rounds : Nat) (m : Machine) :
    Course (Task.execute (.whileLoop condition body)).conduct m fun p =>
      Run.repeatWhile (Value.truthy <$> Evaluation.evaluate p condition) (Evaluation.execute p body) rounds m := by
  induction rounds generalizing m with
  | zero => exact .stop .suspended
  | succ rounds ih =>
    have hround : ∀ n, Course (Task.execute (.whileLoop condition body)).conduct n fun p =>
        Run.afterBody (Run.repeatWhile (Value.truthy <$> Evaluation.evaluate p condition) (Evaluation.execute p body)
          rounds) (p (.execute body) n) := by
      intro n
      refine .ask (.execute body) (fun o p => Run.afterBody (Run.repeatWhile (Value.truthy <$> Evaluation.evaluate p
        condition) (Evaluation.execute p body) rounds) o) (.branch (by simp [Stmt.branches])) (fun _ n' => ih n') ?_ ?_
      · rintro s n' ⟨⟩
        exact ⟨(), fun p => rfl⟩
      · intro s n' hs p
        cases s with
        | broke => exact absurd Task.Catches.broke hs
        | _ => rfl
    simp only [Run.repeatWhile_succ]
    refine .ask (.evaluate condition) (fun o p => Run.afterTest (fun n => Run.afterBody (Run.repeatWhile (Value.truthy
      <$> Evaluation.evaluate p condition) (Evaluation.execute p body) rounds) (p (.execute body) n)) o)
      (.expression (by simp [Stmt.expressions])) (fun v n => ?_) nofun fun s n _ p => rfl
    by_cases hv : v.truthy
    · simp only [Run.afterTest, if_pos hv]
      exact hround n
    · simp only [Run.afterTest, if_neg hv]
      exact .done ()

theorem Task.not_catches {s : Stmt} (hloop : ∀ condition body, s ≠ .whileLoop condition body) {t : Task}
    {signal : Signal} : ¬(Task.execute s).Catches t signal := by
  rintro ⟨⟩
  exact hloop _ _ rfl

theorem course_superclass (name : Token) (superclass : Option Expr) (methods : List Routine) (m : Machine) :
    Course (Task.execute (.classDecl name superclass methods)).conduct m fun p =>
      Evaluation.superclassOf p name superclass m := by
  cases superclass with
  | none => exact .done none
  | some e =>
    have hc : ∀ t s, ¬(Task.execute (.classDecl name (some e) methods)).conduct.catches t s :=
      fun _ _ h => Task.not_catches (fun _ _ => Stmt.noConfusion) h
    refine .bind hc (.evaluate (.expression (by simp [Stmt.expressions])) hc) fun v n => ?_
    cases v with
    | classValue id => exact .done (some id)
    | _ => exact .failed _ trivial

/-- A statement other than a block is run in terms of its expressions and branches. -/
theorem course_execution (rounds : Nat) {s : Stmt} (hs : ∀ body, s ≠ .block body) (m : Machine) :
    Course (Task.execute s).conduct m fun p => Evaluation.execution p rounds s m := by
  have hc : (∀ condition body, s ≠ .whileLoop condition body) → ∀ t s', ¬(Task.execute s).conduct.catches t s' :=
    fun hloop _ _ h => Task.not_catches hloop h
  have hpart : ∀ e ∈ s.expressions, (∀ t s', ¬(Task.execute s).conduct.catches t s') → ∀ n,
      Course (Task.execute s).conduct n fun p => Evaluation.evaluate p e n :=
    fun e h hc n => .evaluate (.expression h) hc
  cases s with
  | block body => exact absurd rfl (hs body)
  | whileLoop condition body => exact course_loop condition body rounds m
  | breakLoop keyword => exact .stop .broke
  | useLibrary keyword path =>
    simp only [Evaluation.execution, Run.useLibrary, Run.change]
    split
    · next native h => exact .move_done (Task.Moves.library h) ()
    · next h => exact .move_done (Task.Moves.notice h) ()
  | function routine => exact .move_done Task.Moves.function ()
  | expression value =>
    exact .bind (hc nofun) (hpart value (by simp [Stmt.expressions]) (hc nofun) m) fun _ n => .done ()
  | print keyword values =>
    refine .bind (hc nofun) (.evaluateAll (fun e he => .expression he) (hc nofun)) fun vs n => ?_
    simp only [Run.look_bind, Run.printLine]
    split
    · exact .move_done (@Task.Moves.print keyword values _ n) ()
    · exact .move (@Task.Moves.print keyword values _ n) (.failed keyword.line trivial)
  | varDecl name initializer =>
    cases initializer with
    | none => exact .move_done Task.Moves.binding ()
    | some value =>
      refine .bind (hc nofun) (hpart value (by simp [Stmt.expressions]) (hc nofun) m) fun v n => ?_
      exact .move_done Task.Moves.binding ()
  | returnValue keyword value =>
    cases value with
    | none => exact .stop .returned
    | some value =>
      refine .bind (hc nofun) (hpart value (by simp [Stmt.expressions]) (hc nofun) m) fun v n => ?_
      exact .stop .returned
  | ifElse condition yes no =>
    refine .bind (hc nofun) (hpart condition (by simp [Stmt.expressions]) (hc nofun) m) fun c n => ?_
    by_cases ht : c.truthy
    · simp only [if_pos ht]
      exact .execute (.branch (by simp [Stmt.branches])) (hc nofun)
    · simp only [if_neg ht]
      cases no with
      | none => exact .done ()
      | some no => exact .execute (.branch (by simp [Stmt.branches])) (hc nofun)
  | classDecl name superclass methods =>
    refine .bind (hc nofun) (course_superclass name superclass methods m) fun parent n => ?_
    exact .move_done Task.Moves.classDecl ()

/-! ### Blocks -/

theorem course_body (body : List Stmt) (m : Machine) :
    Course (Stmt.bodyConduct body) m fun p => Evaluation.executeAll p body m :=
  .executeAll (fun s hs => ⟨s, hs, rfl⟩) fun _ _ h => h

namespace Machine

/-- The machine in another frame. -/
def inFrame (frame : FrameId) (m : Machine) : Machine := { m with frame }

/-- The machine in a new frame inside the current one. -/
def inBlock (m : Machine) : Machine :=
  { m with heap := (m.heap.addChild m.frame).2, frame := (m.heap.addChild m.frame).1 }

/-- The machine in a new frame that binds the parameters of a function. -/
def calling (m : Machine) (f : Closure) (arguments : List Value) : Machine :=
  let bindings := Table.putAll {} ((f.routine.params.map (·.lexeme)).zip arguments)
  { m with
    heap := (m.heap.addFrame ⟨bindings, some f.frame⟩).2
    frame := (m.heap.addFrame ⟨bindings, some f.frame⟩).1 }

end Machine

theorem Run.inFrame_eq {α : Type} (frame : FrameId) (r : Run α) (m : Machine) :
    Run.inFrame frame r m = (r (m.inFrame frame)).onMachine (Machine.inFrame m.frame) := by
  unfold Run.inFrame Machine.inFrame
  cases r { m with frame } <;> rfl

theorem execution_block (p : Performer) (rounds : Nat) (body : List Stmt) (m : Machine) :
    Evaluation.execution p rounds (.block body) m =
      (Evaluation.executeAll p body m.inBlock).onMachine (Machine.inFrame m.frame) :=
  Run.inFrame_eq _ _ { m with heap := (m.heap.addChild m.frame).2 }

/-! ### Functions that are entered -/

/-- What a call comes to behind the body of its function, in the frame of the caller. -/
def Closure.conclude (f : Closure) : Outcome Unit → Outcome Value
  | .done _ m => if f.isInitializer then Evaluation.receiver f m else .done .nil m
  | .stopped (.returned value) m => .done value m
  | .stopped s m => .stopped s m

theorem apply_eq (p : Performer) (f : Closure) (arguments : List Value) (m : Machine) :
    Evaluation.apply p f arguments m =
      f.conclude ((Evaluation.executeAll p f.routine.body (m.calling f arguments)).onMachine (Machine.inFrame m.frame)) := by
  let bindings := Table.putAll {} ((f.routine.params.map (·.lexeme)).zip arguments)
  let heap := (m.heap.addFrame ⟨bindings, some f.frame⟩).2
  let frame := (m.heap.addFrame ⟨bindings, some f.frame⟩).1
  show Evaluation.result f (Run.inFrame frame (Evaluation.executeAll p f.routine.body)) { m with heap } = _
  unfold Evaluation.result
  rw [Run.inFrame_eq]
  show (match (Evaluation.executeAll p f.routine.body (m.calling f arguments)).onMachine (Machine.inFrame m.frame) with
    | .done _ m => if f.isInitializer then Evaluation.receiver f m else .done .nil m
    | .stopped (.returned value) m => .done value m
    | .stopped s m => .stopped s m) = _
  cases (Evaluation.executeAll p f.routine.body (m.calling f arguments)).onMachine (Machine.inFrame m.frame) with
  | done u w => rfl
  | stopped s w => cases s <;> rfl

/-- The entry into a function: the function, the machine on which it is called, and the instance that is being made, with
its class, if the function is an initializer that was called through its class. -/
structure Entry where
  function : Closure
  machine : Machine
  made : Option (InstanceId × ClassId)

/-- The entry into the initializer of a class, bound to a new instance. -/
def Machine.initializerEntry (m : Machine) (classId : ClassId) (method : Closure) : Entry :=
  let (id, heap) := m.heap.addInstance { classId }
  let (bound, heap) := heap.bind method id
  ⟨bound, { m with heap }, some (id, classId)⟩

/-- The function that a call enters, if the number of arguments is right: a function of the program, or the initializer
of a class, bound to a new instance. -/
def Machine.entered? (m : Machine) (callee : Value) (arguments : List Value) : Option Entry :=
  match callee with
  | .closure id =>
    (m.heap.closure? id).bind fun f => if f.arity = arguments.length then some ⟨f, m, none⟩ else none
  | .classValue classId =>
    if m.heap.classArity classId initializerName = arguments.length then
      (m.heap.findMethod? classId initializerName).map (m.initializerEntry classId)
    else none
  | _ => none

/-- What is entered is a function of the program on the same machine, or the initializer of a class. -/
theorem Machine.entered?_cases {m : Machine} {callee : Value} {arguments : List Value} {e : Entry}
    (he : m.entered? callee arguments = some e) :
    (∃ id f, callee = .closure id ∧ m.heap.closure? id = some f ∧ f.arity = arguments.length ∧ e = ⟨f, m, none⟩) ∨
      ∃ classId method, callee = .classValue classId ∧
        m.heap.classArity classId initializerName = arguments.length ∧
        m.heap.findMethod? classId initializerName = some method ∧ e = m.initializerEntry classId method := by
  cases callee with
  | closure id =>
    obtain ⟨f, hf, hentry⟩ := Option.bind_eq_some_iff.mp he
    split at hentry
    · next harity =>
      cases hentry
      exact Or.inl ⟨id, f, rfl, hf, harity, rfl⟩
    · cases hentry
  | classValue classId =>
    simp only [entered?] at he
    split at he
    · next harity =>
      obtain ⟨method, hmethod, rfl⟩ := Option.map_eq_some_iff.mp he
      exact Or.inr ⟨classId, method, rfl, harity, hmethod, rfl⟩
    · cases he
  | _ => cases he

namespace Entry

/-- The machine on which the body of the function runs, as one more call. -/
def inside (e : Entry) (arguments : List Value) : Machine :=
  { e.machine with depth := e.machine.depth + 1 }.calling e.function arguments

/-- The call is over. -/
def leave (m : Machine) : Machine := { m with depth := m.depth - 1 }

/-- What follows the call: the methods of an instance that was made are copied into its fields. -/
def complete (e : Entry) : Outcome Value → Outcome Value
  | .done value m =>
    match e.made with
    | none => .done value m
    | some (id, classId) => .done (.object id) (m.copyLineage id classId)
  | .stopped s m => .stopped s m

/-- What a call comes to behind the body of its function. -/
def finish (e : Entry) (o : Outcome Unit) : Outcome Value :=
  e.complete ((e.function.conclude (o.onMachine (Machine.inFrame e.machine.frame))).onMachine leave)

theorem complete_of_none {e : Entry} (h : e.made = none) (o : Outcome Value) : e.complete o = o := by
  cases o with
  | done value m => simp only [complete, h]
  | stopped s m => rfl

end Entry

theorem Run.nested_eq {α : Type} (line : Nat) (r : Run α) (m : Machine) :
    Run.nested line r m = if depthLimit ≤ m.depth then .stopped (.failed ⟨line, .tooDeep⟩) m
      else (r { m with depth := m.depth + 1 }).onMachine Entry.leave := by
  unfold Run.nested
  split
  · rfl
  · cases r { m with depth := m.depth + 1 } <;> rfl

theorem Heap.findMethod?_addInstance (h : Heap) (i : Instance) (id : ClassId) (name : String) :
    (h.addInstance i).2.findMethod? id name = h.findMethod? id name :=
  findMethod?_congr (show (h.addInstance i).2.classes = h.classes from rfl) id name

theorem instantiate_of_initializer (p : Performer) {classId : ClassId} (arguments : List Value) (line : Nat)
    {m : Machine} {method : Closure} (h : m.heap.findMethod? classId initializerName = some method) :
    Evaluation.instantiate p classId arguments line m =
      (m.initializerEntry classId method).complete (Run.nested line
        (Evaluation.apply p (m.initializerEntry classId method).function arguments)
        (m.initializerEntry classId method).machine) := by
  have hfind : (m.heap.addInstance { classId }).2.findMethod? classId initializerName = some method :=
    (Heap.findMethod?_addInstance ..).trans h
  simp only [Evaluation.instantiate, Run.onHeap_bind, Run.look_bind, hfind]
  show Run.bind (Run.bind (Run.nested line (Evaluation.apply p (m.initializerEntry classId method).function arguments))
    fun _ => Run.pure ()) _ (m.initializerEntry classId method).machine = _
  simp only [Run.bind]
  cases Run.nested line (Evaluation.apply p (m.initializerEntry classId method).function arguments)
    (m.initializerEntry classId method).machine <;> rfl

/-- A function that is called is entered, unless too many calls are running. -/
theorem invocation_of_entry (p : Performer) {callee : Value} {arguments : List Value} (line : Nat) {m : Machine}
    {e : Entry} (he : m.entered? callee arguments = some e) :
    Evaluation.invocation p callee arguments line m =
      if depthLimit ≤ m.depth then .stopped (.failed ⟨line, .tooDeep⟩) e.machine
      else e.finish (Evaluation.executeAll p e.function.routine.body (e.inside arguments)) := by
  rcases Machine.entered?_cases he with ⟨id, f, rfl, hf, harity, rfl⟩ | ⟨classId, method, rfl, harity, hmethod, rfl⟩
  · simp only [Evaluation.invocation, Run.look_bind, hf, if_pos harity, Run.nested_eq, apply_eq]
    split
    · rfl
    · exact (Entry.complete_of_none rfl _).symm
  · simp only [Evaluation.invocation, Run.look_bind, if_pos harity]
    rw [instantiate_of_initializer p arguments line hmethod, Run.nested_eq, apply_eq]
    by_cases hd : depthLimit ≤ m.depth
    · have hd' : depthLimit ≤ (m.initializerEntry classId method).machine.depth := hd
      rw [if_pos hd, if_pos hd']
      rfl
    · have hd' : ¬depthLimit ≤ (m.initializerEntry classId method).machine.depth := hd
      rw [if_neg hd, if_neg hd']
      rfl

/-- A native function moves nothing but the clock and the input. -/
theorem course_callPrimitive (f : Native) (arguments : List Value) (line : Nat) (m : Machine) :
    Course (Task.invoke (.native f) arguments line).conduct m fun _ =>
      Run.callPrimitive f.primitive arguments line m := by
  have hnative : ∀ result, Course (Task.invoke (.native f) arguments line).conduct m fun _ =>
      Run.ofNative result line m := by
    intro result
    cases result with
    | ok value => exact .done value
    | error fault => exact .failed line trivial
  cases hf : f.primitive with
  | clock => exact .move_done Task.Moves.clock _
  | readWord =>
    simp only [Run.callPrimitive, Run.readWord]
    split
    · exact .move_done (Task.Moves.word hf) _
    · exact .move_done (Task.Moves.word hf) _
    · exact .move (Task.Moves.word hf) (.failed line trivial)
  | host index =>
    simp only [Run.callPrimitive, Run.callHost]
    split
    · exact .done _
    · split
      · exact .done _
      · exact .failed line trivial
  | _ => exact hnative _

/-- A call that enters no function keeps to its conduct, and asks for nothing. -/
theorem course_invocation {callee : Value} {arguments : List Value} (line : Nat) {m : Machine}
    (he : m.entered? callee arguments = none) :
    Course (Task.invoke callee arguments line).conduct m fun p => Evaluation.invocation p callee arguments line m := by
  cases callee with
  | native f =>
    by_cases harity : f.arity.accepts arguments.length
    · simp only [Evaluation.invocation, if_pos harity]
      exact course_callPrimitive f arguments line m
    · simp only [Evaluation.invocation, if_neg harity]
      exact .failed line trivial
  | closure id =>
    simp only [Evaluation.invocation, Run.look_bind]
    cases hf : m.heap.closure? id with
    | none => exact .failed line trivial
    | some f =>
      simp only [Machine.entered?, hf, Option.bind_some] at he
      by_cases harity : f.arity = arguments.length
      · rw [if_pos harity] at he
        cases he
      · simp only [if_neg harity]
        exact .failed line trivial
  | classValue classId =>
    simp only [Evaluation.invocation, Run.look_bind]
    by_cases harity : m.heap.classArity classId initializerName = arguments.length
    · simp only [Machine.entered?, if_pos harity, Option.map_eq_none_iff] at he
      have hfind : (m.heap.addInstance { classId }).2.findMethod? classId initializerName = none :=
        (Heap.findMethod?_addInstance ..).trans he
      simp only [if_pos harity, Evaluation.instantiate, Run.onHeap_bind, Run.look_bind, hfind]
      exact .move_done (Task.Moves.made he) _
    · simp only [if_neg harity]
      exact .failed line trivial
  | _ => exact .failed line trivial

/-! ### All tasks -/

/-- A task keeps to its conduct, or it is a block, or the call of a function, which is refused or entered. -/
inductive Task.Manner (rounds : Nat) : Task → Machine → Prop where
  | plain {task m} : Course task.conduct m (fun p => Evaluation.performOver p rounds task m) → Manner rounds task m
  | block {body m} : Manner rounds (.execute (.block body)) m
  | refused {callee arguments line m e} : m.entered? callee arguments = some e → depthLimit ≤ m.depth →
      Manner rounds (.invoke callee arguments line) m
  | entered {callee arguments line m e} : m.entered? callee arguments = some e → ¬depthLimit ≤ m.depth →
      Manner rounds (.invoke callee arguments line) m

theorem Task.manner (rounds : Nat) (task : Task) (m : Machine) : task.Manner rounds m := by
  cases task with
  | evaluate e => exact .plain (course_evaluation e m)
  | execute s =>
    by_cases hs : ∃ body, s = .block body
    · obtain ⟨body, rfl⟩ := hs
      exact .block
    · exact .plain (course_execution rounds (fun body heq => hs ⟨body, heq⟩) m)
  | invoke callee arguments line =>
    cases he : m.entered? callee arguments with
    | none => exact .plain (course_invocation line he)
    | some e =>
      by_cases hd : depthLimit ≤ m.depth
      · exact .refused he hd
      · exact .entered he hd

end Treewalk
