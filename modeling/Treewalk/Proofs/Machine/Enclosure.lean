import Treewalk.Proofs.Heap.Binding
import Treewalk.Proofs.Machine.Activities
import Treewalk.Proofs.Scope.Receivers

/-!
Activations of methods, and what they enclose. Each mention of the receiver that is evaluated, and each one in the body of
a function that was made on the way, stands in the frame of an activation of the method that holds it in the program, or
in frames within that one. This goes on for functions that are kept when the method is over.
-/

namespace Treewalk

/-- The activity is the call of a function that is entered. -/
inductive Activity.Enters : Activity → Entry → List Value → Prop where
  | intro {steps callee arguments line m e} : m.entered? callee arguments = some e → m.depth < depthLimit →
      Enters ⟨steps + 1, .invoke callee arguments line, m⟩ e arguments

/-- An activation of a method: the call, the entry into the method, its arguments and the receiver. -/
structure Activation where
  call : Activity
  entry : Entry
  arguments : List Value
  receiver : InstanceId

namespace Activation

/-- The frame in which the body of the method runs. -/
def frame (a : Activation) : FrameId := (a.entry.inside a.arguments).frame

/-- The mentions of the receiver in the method. -/
def receivers (a : Activation) : List Mention := a.entry.function.routine.receivers

/-- The call was seen, it entered the method, bound to the receiver, and the heap has grown out of the one on which the body
began. -/
structure Standing (seen : Activity → Prop) (h : Heap) (a : Activation) : Prop where
  seen : seen a.call
  enters : a.call.Enters a.entry a.arguments
  bound : a.entry.machine.heap.BoundTo a.entry.function a.receiver
  retained : (a.entry.inside a.arguments).heap.Retains h

end Activation

/-- The mention, in a phrase that runs in the frame, belongs to an activation of a method around the frame. -/
def Heap.Encloses (seen : Activity → Prop) (h : Heap) (frame : FrameId) (x : Mention) : Prop :=
  ∃ (a : Activation) (k : Nat), a.Standing seen h ∧ h.ancestor? frame k = some a.frame ∧ x.deeper k ∈ a.receivers

/-- The function is a method that is bound to a receiver, or what it mentions belongs to activations of methods. -/
structure Closure.Situated (seen : Activity → Prop) (h : Heap) (f : Closure) : Prop where
  named : f.routine.Named
  receivers : (∃ receiver, h.BoundTo f receiver) ∨
    f.isInitializer = false ∧ ∀ x ∈ f.routine.receivers, h.Encloses seen f.frame (x.deeper 1)

/-- All functions and methods of the heap are situated. -/
structure Heap.Situated (seen : Activity → Prop) (h : Heap) : Prop where
  inhabited : h.frames.size ≠ 0
  closures : ∀ id f, h.closure? id = some f → f.Situated seen h
  methods : ∀ method, h.IsMethod method → method.routine.Named

namespace Task

def Named : Task → Prop
  | .evaluate e => e.Named
  | .execute s => s.Named
  | .invoke _ _ _ => True

def receivers : Task → List Mention
  | .evaluate e => e.receivers
  | .execute s => s.receivers
  | .invoke _ _ _ => []

/-- What the task mentions belongs to activations of methods. -/
structure Situated (seen : Activity → Prop) (m : Machine) (task : Task) : Prop where
  named : task.Named
  receivers : ∀ x ∈ task.receivers, m.heap.Encloses seen m.frame x

end Task

/-! ### Growth -/

variable {seen : Activity → Prop} {h h' : Heap}

theorem Heap.parent?_addFrame (h : Heap) (bindings : Table Value) (parent : FrameId) :
    (h.addFrame ⟨bindings, some parent⟩).2.parent? (h.addFrame ⟨bindings, some parent⟩).1 = some parent :=
  Option.bind_eq_some_iff.mpr ⟨_, frame?_addFrame_self h _, rfl⟩

namespace Entry

variable (e : Entry) (arguments : List Value)

theorem parent?_inside : (e.inside arguments).heap.parent? (e.inside arguments).frame = some e.function.frame :=
  Heap.parent?_addFrame _ _ _

theorem retains_inside : e.machine.heap.Retains (e.inside arguments).heap := Heap.Retains.addFrame _ _

end Entry

namespace Activation.Standing

variable {a : Activation} (ha : a.Standing seen h)
include ha

theorem retain (hr : h.Retains h') : a.Standing seen h' := ⟨ha.seen, ha.enters, ha.bound, ha.retained.trans hr⟩

theorem mono {more : Activity → Prop} (hmore : ∀ b, seen b → more b) : a.Standing more h :=
  ⟨hmore _ ha.seen, ha.enters, ha.bound, ha.retained⟩

theorem boundTo : h.BoundTo a.entry.function a.receiver :=
  ha.bound.retain ((a.entry.retains_inside a.arguments).trans ha.retained)

theorem parent? : h.parent? a.frame = some a.entry.function.frame :=
  ha.retained.parent? (a.entry.parent?_inside a.arguments)

end Activation.Standing

theorem Heap.Encloses.retain {frame : FrameId} {x : Mention} (he : h.Encloses seen frame x) (hr : h.Retains h') :
    h'.Encloses seen frame x := by
  obtain ⟨a, k, ha, hancestor, hmem⟩ := he
  exact ⟨a, k, ha.retain hr, hr.ancestor? hancestor, hmem⟩

theorem Heap.Encloses.within {frame inner : FrameId} {x : Mention} (he : h.Encloses seen frame (x.deeper 1))
    (hparent : h.parent? inner = some frame) : h.Encloses seen inner x := by
  obtain ⟨a, k, ha, hancestor, hmem⟩ := he
  -- The activation is one frame further away, and the mention is one scope less deep in the phrase.
  refine ⟨a, k + 1, ha, Option.bind_eq_some_iff.mpr ⟨frame, hparent, hancestor⟩, ?_⟩
  rw [Mention.deeper_deeper, Nat.add_comm] at hmem
  exact hmem

theorem Closure.Situated.retain {f : Closure} (hf : f.Situated seen h) (hr : h.Retains h') : f.Situated seen h' := by
  refine ⟨hf.named, ?_⟩
  rcases hf.receivers with ⟨receiver, hbound⟩ | ⟨hplain, henclosed⟩
  · exact Or.inl ⟨receiver, hbound.retain hr⟩
  · exact Or.inr ⟨hplain, fun x hx => (henclosed x hx).retain hr⟩

theorem Task.Situated.retain {task : Task} {m n : Machine} (ht : task.Situated seen m) (hr : m.heap.Retains n.heap)
    (hframe : n.frame = m.frame) : task.Situated seen n := by
  refine ⟨ht.named, fun x hx => ?_⟩
  rw [hframe]
  exact (ht.receivers x hx).retain hr

theorem Heap.Situated.mono {more : Activity → Prop} (hs : h.Situated seen) (hmore : ∀ b, seen b → more b) :
    h.Situated more := by
  refine ⟨hs.inhabited, fun id f hf => ⟨(hs.closures id f hf).named, ?_⟩, hs.methods⟩
  rcases (hs.closures id f hf).receivers with hbound | ⟨hplain, henclosed⟩
  · exact Or.inl hbound
  · refine Or.inr ⟨hplain, fun x hx => ?_⟩
    obtain ⟨a, k, ha, hrest⟩ := henclosed x hx
    exact ⟨a, k, ha.mono hmore, hrest⟩

/-! ### Single changes -/

/-- The heap has grown into one that is situated too. -/
structure Heap.Advances (seen : Activity → Prop) (h h' : Heap) : Prop where
  retains : h.Retains h'
  situated : h'.Situated seen

theorem Heap.Advances.trans {h'' : Heap} (a : h.Advances seen h') (b : h'.Advances seen h'') : h.Advances seen h'' :=
  ⟨a.retains.trans b.retains, b.situated⟩

namespace Heap.Situated

variable (hs : h.Situated seen)
include hs

/-- Functions and methods that were there stay situated; the others have to be. -/
theorem advance (hr : h.Retains h')
    (hclosures : ∀ id f, h'.closure? id = some f → h.closure? id = some f ∨ f.Situated seen h')
    (hmethods : ∀ method, h'.IsMethod method → h.IsMethod method ∨ method.routine.Named) : h.Advances seen h' := by
  refine ⟨hr, hr.size_ne_zero hs.inhabited, fun id f hf => ?_, fun method hm => ?_⟩
  · exact (hclosures id f hf).elim (fun hf => (hs.closures id f hf).retain hr) fun hf => hf
  · exact (hmethods method hm).elim (hs.methods method) fun hm => hm

theorem refl : h.Advances seen h := ⟨Retains.refl h, hs⟩

/-- A change of neither functions nor classes. -/
theorem of_retains (hr : h.Retains h') (hclosures : h'.closures = h.closures) (hclasses : h'.classes = h.classes) :
    h.Advances seen h' := by
  refine hs.advance hr (fun id f hf => Or.inl ?_) fun method hm => Or.inl ?_
  · rwa [closure?, hclosures] at hf
  · obtain ⟨id, c, name, hc, hentry⟩ := hm
    rw [class?, hclasses] at hc
    exact ⟨id, c, name, hc, hentry⟩

theorem addFrame (frame : Frame) : h.Advances seen (h.addFrame frame).2 := hs.of_retains (Retains.addFrame h frame) rfl rfl

theorem addInstance (i : Instance) : h.Advances seen (h.addInstance i).2 := hs.of_retains (Retains.of_eq rfl rfl) rfl rfl

theorem setField (id : InstanceId) (name : String) (value : Value) : h.Advances seen (h.setField id name value) :=
  hs.of_retains (Retains.of_eq rfl rfl) rfl rfl

theorem define {id : FrameId} {name : String} (value : Value) (hname : id = globalFrame ∨ name ≠ receiverName) :
    h.Advances seen (h.define id name value) :=
  hs.of_retains (Retains.define h value hname) rfl rfl

theorem addClosure {f : Closure} (hf : f.Situated seen h) : h.Advances seen (h.addClosure f).2 := by
  have hr : h.Retains (h.addClosure f).2 := Retains.of_eq rfl rfl
  refine hs.advance hr (fun id g hg => ?_) fun method hm => Or.inl hm
  rw [closure?_addClosure] at hg
  split at hg
  · cases hg
    exact Or.inr (hf.retain hr)
  · exact Or.inl hg

theorem addClass {c : Class} (hc : ∀ entry ∈ c.methods.entries, entry.2.routine.Named) :
    h.Advances seen (h.addClass c).2 := by
  refine hs.advance (Retains.addClass h c) (fun id f hf => Or.inl hf) fun method hm => ?_
  refine (isMethod_addClass hm).imp_right fun ⟨name, hentry⟩ => ?_
  exact hc (name, method) hentry

theorem bind {method : Closure} (hm : h.IsMethod method) (receiver : InstanceId) :
    h.Advances seen (h.bind method receiver).2 ∧ (h.bind method receiver).1.Situated seen (h.bind method receiver).2 :=
  ⟨hs.addFrame _, hs.methods method hm, Or.inl ⟨receiver, boundTo_bind hm hs.inhabited receiver⟩⟩

theorem bindValue {method : Closure} (hm : h.IsMethod method) (receiver : InstanceId) :
    h.Advances seen (h.bindValue method receiver).2 := by
  obtain ⟨hadvances, hbound⟩ := hs.bind hm receiver
  exact hadvances.trans (hadvances.situated.addClosure hbound)

theorem copyLineage (id : InstanceId) (classId : ClassId) : h.Advances seen (h.copyLineage id classId) := by
  rw [copyLineage_eq]
  refine List.foldlRecOn _ _ hs.refl fun h' hadvances entry hentry => ?_
  have hmethod := hadvances.retains.isMethod (isMethod_of_mem_copies hentry)
  have hbound := hadvances.situated.bindValue hmethod id
  exact (hadvances.trans hbound).trans (hbound.situated.setField _ _ _)

end Heap.Situated

theorem Evaluation.named_methodTable {frame : FrameId} {methods : List Routine} (hn : Routine.AllNamed methods) :
    ∀ entry ∈ (methodTable frame methods).entries, entry.2.routine.Named := by
  intro entry hentry
  rcases Table.mem_putAll hentry with hmem | hmem
  · obtain ⟨routine, hroutine, rfl⟩ := List.mem_map.mp hmem
    exact Routine.allNamed_iff.mp hn routine hroutine
  · cases hmem

variable {task : Task} {m : Machine} {s : Stmt}

/-- A function that is made in the current frame mentions what the phrase mentions that makes it. -/
theorem Task.Situated.closure (ht : task.Situated seen m) {routine : Routine} (hn : routine.Named)
    (hreceivers : ∀ x ∈ routine.receivers, x.deeper 1 ∈ task.receivers) :
    Closure.Situated seen m.heap ⟨routine, m.frame, false⟩ :=
  ⟨hn, Or.inr ⟨rfl, fun x hx => ht.receivers _ (hreceivers x hx)⟩⟩

theorem Task.Moves.advances {m m' : Machine} (h : task.Moves m m') (hs : m.heap.Situated seen)
    (ht : task.Situated seen m) : m.heap.Advances seen m'.heap := by
  cases h with
  | assign => exact hs.define _ (Or.inr ht.named.1)
  | lambda => exact hs.addClosure (ht.closure ht.named fun x hx => List.mem_map_of_mem hx)
  | method hproperty => exact hs.bindValue (Heap.isMethod_of_property? hproperty) _
  | field => exact hs.setField _ _ _
  | print => exact hs.refl
  | binding => exact hs.define _ (Or.inr (ht.named.declared? rfl))
  | function =>
    have hadded := hs.addClosure (ht.closure ht.named.2 fun x hx => List.mem_map_of_mem hx)
    exact hadded.trans (hadded.situated.define _ (Or.inr ht.named.1))
  | @classDecl name superclass methods parent =>
    have hmethods : Routine.AllNamed methods := by
      cases superclass with
      | none => exact ht.named.2
      | some _ => exact ht.named.2.2
    have hadded := hs.addClass (c := ⟨name.lexeme, parent, Evaluation.methodTable m.frame methods⟩)
      (Evaluation.named_methodTable hmethods)
    exact hadded.trans (hadded.situated.define _ (Or.inr (ht.named.declared? rfl)))
  | library => exact hs.define _ (Or.inl rfl)
  | notice => exact hs.refl
  | clock => exact hs.refl
  | word => exact hs.refl
  | made => exact (hs.addInstance _).trans ((hs.addInstance _).situated.copyLineage _ _)

/-! ### Parts, blocks and functions -/

theorem Expr.Named.parts {e : Expr} (h : e.Named) : Expr.AllNamed e.parts := by
  cases e with
  | unary operator right => exact ⟨h, trivial⟩
  | binary left operator right => exact ⟨h.1, h.2, trivial⟩
  | logical left operator right => exact ⟨h.1, h.2, trivial⟩
  | grouping inner => exact ⟨h, trivial⟩
  | assign id name value => exact ⟨h.2, trivial⟩
  | ternary condition question yes no => exact ⟨h.1, h.2.1, h.2.2, trivial⟩
  | call callee paren arguments => exact h
  | get object name => exact ⟨h, trivial⟩
  | set object name value => exact ⟨h.1, h.2, trivial⟩
  | subscript id name index => exact ⟨h, trivial⟩
  | _ => trivial

theorem Expr.allReceivers_parts (e : Expr) : Expr.allReceivers e.parts ⊆ e.receivers := by
  cases e <;> simp [Expr.parts, Expr.allReceivers, Expr.receivers]

theorem Stmt.Named.expressions (h : s.Named) : Expr.AllNamed s.expressions := by
  cases s with
  | expression value => exact ⟨h, trivial⟩
  | print keyword values => exact h
  | varDecl name value =>
    cases value with
    | none => trivial
    | some value => exact ⟨h.2, trivial⟩
  | ifElse condition yes no => cases no <;> exact ⟨h.1, trivial⟩
  | whileLoop condition body => exact ⟨h.1, trivial⟩
  | returnValue keyword value =>
    cases value with
    | none => trivial
    | some value => exact ⟨h, trivial⟩
  | classDecl name parent methods =>
    cases parent with
    | none => trivial
    | some parent => exact ⟨h.2.1, trivial⟩
  | _ => trivial

theorem Stmt.Named.branches (h : s.Named) : Stmt.AllNamed s.branches := by
  cases s with
  | ifElse condition yes no =>
    cases no with
    | none => exact ⟨h.2, trivial⟩
    | some no => exact ⟨h.2.1, h.2.2, trivial⟩
  | whileLoop condition body => exact ⟨h.2, trivial⟩
  | _ => trivial

theorem Routine.Named.body {routine : Routine} (h : routine.Named) : Stmt.AllNamed routine.body := by
  obtain ⟨name, params, body⟩ := routine
  exact h.2

/-- What the expressions and branches of a statement mention the statement mentions. -/
theorem Stmt.allReceivers_parts (s : Stmt) :
    Expr.allReceivers s.expressions ⊆ s.receivers ∧ Stmt.allReceivers s.branches ⊆ s.receivers := by
  unfold Stmt.receivers
  split <;> simp [Stmt.expressions, Stmt.branches, Expr.allReceivers, Stmt.allReceivers]

theorem Task.Part.situated {task t : Task} (h : task.Part t) (ht : task.Situated seen m) : t.Situated seen m := by
  cases h with
  | @operand e part hmem =>
    refine ⟨Expr.allNamed_iff.mp (Expr.Named.parts ht.named) part hmem, fun x hx => ?_⟩
    exact ht.receivers x (e.allReceivers_parts (Expr.mem_allReceivers.mpr ⟨part, hmem, hx⟩))
  | call => exact ⟨trivial, nofun⟩
  | @expression s e hmem =>
    refine ⟨Expr.allNamed_iff.mp (Stmt.Named.expressions ht.named) e hmem, fun x hx => ?_⟩
    exact ht.receivers x (s.allReceivers_parts.1 (Expr.mem_allReceivers.mpr ⟨e, hmem, hx⟩))
  | @branch s part hmem =>
    refine ⟨Stmt.allNamed_iff.mp (Stmt.Named.branches ht.named) part hmem, fun x hx => ?_⟩
    exact ht.receivers x (s.allReceivers_parts.2 (Stmt.mem_allReceivers.mpr ⟨part, hmem, hx⟩))

theorem Task.Situated.of_receivers_eq_nil (hn : s.Named) (hnone : s.receivers = []) :
    (Task.execute s).Situated seen m := by
  refine ⟨hn, fun x hx => ?_⟩
  rw [Task.receivers, hnone] at hx
  cases hx

theorem Task.Situated.inBlock {body : List Stmt} (ht : (Task.execute (.block body)).Situated seen m) (hs : s ∈ body) :
    (Task.execute s).Situated seen m.inBlock := by
  refine ⟨Stmt.allNamed_iff.mp ht.named s hs, fun x hx => ?_⟩
  have houter := ht.receivers _ (List.mem_map_of_mem (Stmt.mem_allReceivers.mpr ⟨s, hs, hx⟩))
  exact (houter.retain (Heap.Retains.addFrame m.heap _)).within (Heap.parent?_addFrame m.heap {} m.frame)

/-- A function that is entered is situated; an initializer that was called through its class is bound to the new
instance. -/
theorem Heap.Situated.entered? (hs : m.heap.Situated seen) {callee : Value} {arguments : List Value} {e : Entry}
    (he : m.entered? callee arguments = some e) :
    m.heap.Advances seen e.machine.heap ∧ e.function.Situated seen e.machine.heap ∧
      ∀ id classId, e.made = some (id, classId) → e.machine.heap.BoundTo e.function id := by
  rcases Machine.entered?_cases he with ⟨id, f, rfl, hf, -, rfl⟩ | ⟨classId, method, rfl, -, hmethod, rfl⟩
  · exact ⟨hs.refl, hs.closures id f hf, nofun⟩
  · have hmade := hs.addInstance { classId }
    have hmethod := hmade.retains.isMethod (isMethod_of_findMethod? hmethod)
    obtain ⟨hbound, hsituated⟩ := hmade.situated.bind hmethod (m.heap.addInstance { classId }).1
    refine ⟨hmade.trans hbound, hsituated, fun id classId heq => ?_⟩
    cases heq
    exact boundTo_bind hmethod hmade.situated.inhabited _

/-- The statements of a function that is entered stand in the frame of its activation. -/
theorem Closure.Situated.inside {call : Activity} {e : Entry} {arguments : List Value} (hcall : seen call)
    (henters : call.Enters e arguments) (hf : e.function.Situated seen e.machine.heap)
    (hs : s ∈ e.function.routine.body) : (Task.execute s).Situated seen (e.inside arguments) := by
  refine ⟨Stmt.allNamed_iff.mp hf.named.body s hs, fun x hx => ?_⟩
  have hx : x ∈ e.function.routine.receivers := by
    rw [Routine.receivers_eq]
    exact Stmt.mem_allReceivers.mpr ⟨s, hs, hx⟩
  -- A method is entered as the activation that encloses its mentions; any other function stands within one.
  rcases hf.receivers with ⟨receiver, hbound⟩ | ⟨-, henclosed⟩
  · exact ⟨⟨call, e, arguments, receiver⟩, 0, ⟨hcall, henters, hbound, Heap.Retains.refl _⟩, rfl, hx⟩
  · exact ((henclosed x hx).retain (e.retains_inside arguments)).within (e.parent?_inside arguments)

/-! ### Runs -/

/-- The machine has come back to its frame, on a heap that has grown and is situated. -/
structure Machine.Advances (seen : Activity → Prop) (m n : Machine) : Prop where
  frame : n.frame = m.frame
  heap : m.heap.Advances seen n.heap

theorem Machine.Advances.trans {m n w : Machine} (a : m.Advances seen n) (b : n.Advances seen w) : m.Advances seen w :=
  ⟨b.frame.trans a.frame, a.heap.trans b.heap⟩

/-- If the answers to situated tasks advance the machine, so does a run that asks for situated tasks only. -/
theorem Course.advances {α : Type} {c : Conduct} {F : Performer → Outcome α} (h : Course c m F) {p : Performer}
    (hs : m.heap.Situated seen) (hmoves : ∀ n n', c.moves n n' → m.Advances seen n → n.Advances seen n')
    (hasks : ∀ t n, c.asks t → m.Advances seen n → t.Situated seen n)
    (hp : ∀ t n, Steers F p t n → n.heap.Situated seen → t.Situated seen n → n.Advances seen (p t n).machine) :
    m.Advances seen (F p).machine ∧ ∀ t n, Asks F p t n → n.heap.Situated seen ∧ t.Situated seen n := by
  obtain ⟨hends, hasked⟩ := h.maintain (I := m.Advances seen) p ⟨rfl, hs.refl⟩
    (fun n n' hmove hn => hn.trans (hmoves n n' hmove hn))
    fun t n ht hn hsteers => hn.trans (hp t n hsteers hn.heap.situated (hasks t n ht hn))
  refine ⟨hends, fun t n ha => ?_⟩
  obtain ⟨ht, hn⟩ := hasked t n ha
  exact ⟨hn.heap.situated, hasks t n ht hn⟩

/-- The machine and the task of the activity are situated. -/
structure Activity.Situated (seen : Activity → Prop) (a : Activity) : Prop where
  heap : a.machine.heap.Situated seen
  task : a.task.Situated seen a.machine

/-- What an activity of the set asks for is in the set. -/
def Activity.Closed (seen : Activity → Prop) : Prop := ∀ a b, seen a → a.AsksFor b → seen b

section Performing
variable {steps : Nat} (hclosed : Activity.Closed seen)
  (hp : ∀ t n, seen ⟨steps, t, n⟩ → Activity.Situated seen ⟨steps, t, n⟩ → n.Advances seen (perform steps t n).machine)
include hp

theorem advances_body {body : List Stmt} {m : Machine} (hs : m.heap.Situated seen)
    (hbody : ∀ s ∈ body, (Task.execute s).Situated seen m)
    (hseen : ∀ t n, Steers (fun p => Evaluation.executeAll p body m) (perform steps) t n → seen ⟨steps, t, n⟩) :
    m.Advances seen (Evaluation.executeAll (perform steps) body m).machine ∧
      ∀ t n, Asks (fun p => Evaluation.executeAll p body m) (perform steps) t n →
        n.heap.Situated seen ∧ t.Situated seen n := by
  refine (course_body body m).advances hs nofun (fun t n ht hn => ?_) fun t n hsteers hn ht => ?_
  · obtain ⟨s, hmem, rfl⟩ := ht
    exact (hbody s hmem).retain hn.heap.retains hn.frame
  · exact hp t n (hseen t n hsteers) ⟨hn, ht⟩

include hclosed

theorem advances_inside {callee : Value} {arguments : List Value} {line : Nat} {m : Machine} {e : Entry}
    (hseen : seen ⟨steps + 1, .invoke callee arguments line, m⟩) (hs : m.heap.Situated seen)
    (he : m.entered? callee arguments = some e) (hd : m.depth < depthLimit) :
    (e.inside arguments).Advances seen
        (Evaluation.executeAll (perform steps) e.function.routine.body (e.inside arguments)).machine ∧
      ∀ t n, Asks (fun p => Evaluation.executeAll p e.function.routine.body (e.inside arguments)) (perform steps) t n →
        n.heap.Situated seen ∧ t.Situated seen n := by
  obtain ⟨hentered, hfunction, -⟩ := hs.entered? he
  refine advances_body hp (hentered.situated.addFrame _).situated (fun s hs => ?_) fun t n hsteers => ?_
  · exact hfunction.inside hseen (.intro he hd) hs
  · exact hclosed _ _ hseen (.intro (steers_entered he (Nat.not_le.mpr hd) hsteers).asks)

theorem performOver_advances {task : Task} {m : Machine} (hseen : seen ⟨steps + 1, task, m⟩)
    (ha : Activity.Situated seen ⟨steps + 1, task, m⟩) :
    m.Advances seen (perform (steps + 1) task m).machine ∧
      ∀ t n, Asks (fun p => Evaluation.performOver p steps task m) (perform steps) t n →
        n.heap.Situated seen ∧ t.Situated seen n := by
  obtain ⟨hs, ht⟩ := ha
  cases task.manner steps m with
  | plain hcourse =>
    refine hcourse.advances hs (fun n n' hmove hn => ?_) (fun t n hpart hn => ?_) fun t n hsteers hn ht => ?_
    · have hcontext : SameContext n n' := Durable.moves hmove
      exact ⟨hcontext.frame, hmove.advances hn.heap.situated (ht.retain hn.heap.retains hn.frame)⟩
    · exact hpart.situated (ht.retain hn.heap.retains hn.frame)
    · exact hp t n (hclosed _ _ hseen (.intro hsteers.asks)) ⟨hn, ht⟩
  | @block body =>
    have hblock := hs.addFrame { enclosing := some m.frame }
    obtain ⟨hends, hasks⟩ := advances_body hp (m := m.inBlock) hblock.situated (fun s hs => ht.inBlock hs)
      fun t n hsteers => hclosed _ _ hseen (.intro (steers_block hsteers).asks)
    refine ⟨?_, fun t n hasked => hasks t n (asks_block hasked)⟩
    show m.Advances seen (Evaluation.execution (perform steps) steps (.block body) m).machine
    rw [execution_block, Outcome.machine_onMachine]
    exact ⟨rfl, hblock.trans hends.heap⟩
  | @refused callee arguments line _ e he hd =>
    obtain ⟨hentered, -, -⟩ := hs.entered? he
    refine ⟨?_, fun t n hasked => absurd hasked (not_asks_refused he hd)⟩
    rw [perform_entered he, if_pos hd]
    exact ⟨(Machine.entered?_context he).frame, hentered⟩
  | @entered callee arguments line _ e he hd =>
    obtain ⟨hentered, -, -⟩ := hs.entered? he
    obtain ⟨hends, hasks⟩ := advances_inside hclosed hp hseen hs he (Nat.not_le.mp hd)
    refine ⟨?_, fun t n hasked => hasks t n (asks_entered he hd hasked)⟩
    show m.Advances seen (Evaluation.invocation (perform steps) callee arguments line m).machine
    rw [invocation_of_entry (perform steps) line he, if_neg hd]
    -- Behind the body the machine is back in the frame of the caller, and methods may be copied into a new instance.
    have hleft := (hentered.trans (hentered.situated.addFrame _)).trans hends.heap
    have hframe : e.machine.frame = m.frame := (Machine.entered?_context he).frame
    rcases e.machine_finish (Evaluation.executeAll (perform steps) e.function.routine.body (e.inside arguments)) with
      h | ⟨id, classId, h⟩
    · rw [h]
      exact ⟨hframe, hleft⟩
    · rw [h]
      exact ⟨hframe, hleft.trans (hleft.situated.copyLineage id classId)⟩

end Performing

theorem Entry.complete_of_receiver {e : Entry} {receiver : InstanceId}
    (hmade : ∀ id classId, e.made = some (id, classId) → receiver = id) (w : Machine) :
    ∃ w', e.complete (.done (.object receiver) w) = .done (.object receiver) w' := by
  simp only [Entry.complete]
  cases hcases : e.made with
  | none => exact ⟨w, rfl⟩
  | some made =>
    obtain ⟨id, classId⟩ := made
    obtain rfl := hmade id classId hcases
    exact ⟨w.copyLineage receiver classId, rfl⟩

section Closed
variable (hclosed : Activity.Closed seen)
include hclosed

theorem perform_advances {steps : Nat} {task : Task} {m : Machine} (hseen : seen ⟨steps, task, m⟩)
    (ha : Activity.Situated seen ⟨steps, task, m⟩) : m.Advances seen (perform steps task m).machine := by
  induction steps generalizing task m with
  | zero => exact ⟨rfl, ha.heap.refl⟩
  | succ steps ih => exact (performOver_advances hclosed (fun t n => ih) hseen ha).1

theorem Activity.AsksFor.situated {a b : Activity} (h : a.AsksFor b) (hseen : seen a) (ha : a.Situated seen) :
    b.Situated seen := by
  cases h with
  | intro hasks =>
    obtain ⟨hheap, htask⟩ := (performOver_advances hclosed (fun t n => perform_advances hclosed) hseen ha).2 _ _ hasks
    exact ⟨hheap, htask⟩

/-- An initializer is bound to a receiver, which is the new instance if it was called through its class; and where it runs
off its end, it returns the receiver, which is what the call comes to. -/
theorem Activity.Situated.initializer {steps line : Nat} {callee : Value} {arguments : List Value} {m : Machine}
    {e : Entry} (hseen : seen ⟨steps + 1, .invoke callee arguments line, m⟩)
    (ha : Activity.Situated seen ⟨steps + 1, .invoke callee arguments line, m⟩)
    (he : m.entered? callee arguments = some e) (hd : m.depth < depthLimit) (hinitializer : e.function.isInitializer) :
    ∃ receiver, e.machine.heap.BoundTo e.function receiver ∧
      (∀ id classId, e.made = some (id, classId) → receiver = id) ∧
      ∀ w, Evaluation.executeAll (perform steps) e.function.routine.body (e.inside arguments) = .done () w →
        e.applied steps arguments = .done (.object receiver) (w.inFrame e.machine.frame) ∧
        ∃ w', perform (steps + 1) (.invoke callee arguments line) m = .done (.object receiver) w' := by
  obtain ⟨-, hfunction, hmade⟩ := ha.heap.entered? he
  have hends := (advances_inside hclosed (fun t n => perform_advances hclosed) hseen ha.heap he hd).1
  rcases hfunction.receivers with ⟨receiver, hbound⟩ | ⟨hplain, -⟩
  · have hreceiver : ∀ id classId, e.made = some (id, classId) → receiver = id :=
      fun id classId heq => hbound.unique (hmade id classId heq)
    refine ⟨receiver, hbound, hreceiver, fun w hw => ?_⟩
    rw [hw] at hends
    have hvalue : (w.inFrame e.machine.frame).heap.getOwn? e.function.frame receiverName = some (.object receiver) :=
      (hbound.retain ((e.retains_inside arguments).trans hends.heap.retains)).getOwn?
    have happlied : e.applied steps arguments = .done (.object receiver) (w.inFrame e.machine.frame) := by
      rw [Entry.applied, apply_eq]
      refine (congrArg (fun o => e.function.conclude (Outcome.onMachine _ o)) hw).trans ?_
      refine (if_pos hinitializer).trans ?_
      rcases receiver_cases e.function (w.inFrame e.machine.frame) with ⟨value, hget, hdone⟩ | ⟨hnone, -⟩
      · cases hvalue.symm.trans hget
        exact hdone
      · cases hvalue.symm.trans hnone
    refine ⟨happlied, ?_⟩
    rw [perform_entered he, if_neg (Nat.not_le.mpr hd), happlied]
    exact Entry.complete_of_receiver hreceiver _
  · cases hplain.symm.trans hinitializer

/-- In a program outside of whose classes no receiver is mentioned, all activities are situated. -/
theorem Machine.Underway.situated {steps : Nat} {program : List Stmt} {m : Machine} {a : Activity}
    {outer : List Activity} (h : m.Underway steps program (a :: outer))
    (hseen : ∀ b below, m.Underway steps program (b :: below) → seen b) (hm : m.heap.Situated seen)
    (hn : Stmt.AllNamed program) (hreceivers : Stmt.allReceivers program = []) : a.Situated seen := by
  generalize hstack : a :: outer = stack at h
  -- What the first statement leaves is situated in the same set, since the set holds all of the program from the start.
  induction h generalizing a outer with
  | @here s rest m =>
    cases hstack
    obtain ⟨hnone, -⟩ := List.append_eq_nil_iff.mp hreceivers
    exact ⟨hm, .of_receivers_eq_nil hn.1 hnone⟩
  | @later s rest m m₁ stack hnext _ ih =>
    obtain ⟨hnone, hrest⟩ := List.append_eq_nil_iff.mp hreceivers
    have hadvances := perform_advances hclosed (hseen _ _ .here) ⟨hm, .of_receivers_eq_nil hn.1 hnone⟩
    rw [Machine.machine_of_next? hnext] at hadvances
    exact ih (fun b below hb => hseen b below (.later hnext hb)) hadvances.heap.situated hn.2 hrest hstack
  | within hunder hasks ih =>
    cases hstack
    exact hasks.situated hclosed (hseen _ _ hunder) (ih hseen hm hn hreceivers rfl)

theorem Machine.interpret_advances {steps : Nat} {program : List Stmt} {m : Machine}
    (hseen : ∀ b below, m.Underway steps program (b :: below) → seen b) (hm : m.heap.Situated seen)
    (hn : Stmt.AllNamed program) (hreceivers : Stmt.allReceivers program = []) :
    m.heap.Advances seen (m.interpret steps program).2.heap := by
  induction program generalizing m with
  | nil =>
    rw [Machine.interpret_nil]
    exact hm.refl
  | cons s rest ih =>
    obtain ⟨hnone, hrest⟩ := List.append_eq_nil_iff.mp hreceivers
    have hadvances := perform_advances hclosed (hseen _ _ .here) ⟨hm, .of_receivers_eq_nil hn.1 hnone⟩
    rcases Machine.interpret_cons steps s rest m with ⟨m₁, hnext, heq⟩ | ⟨-, heq | heq⟩
    · rw [Machine.machine_of_next? hnext] at hadvances
      rw [heq]
      exact hadvances.heap.trans
        (ih (fun b below hb => hseen b below (.later hnext hb)) hadvances.heap.situated hn.2 hrest)
    · rw [heq]
      exact hadvances.heap
    · rw [heq]
      exact hadvances.heap

end Closed

end Treewalk
