import Treewalk.Proofs.Machine.Surroundings

/-!
Relations between heaps that every single change of a heap keeps. Every task keeps them then, step by step.
-/

namespace Treewalk

/-- A relation between heaps that every single change keeps. -/
class Heap.Persistent (K : Heap → Heap → Prop) : Prop where
  refl : ∀ h, K h h
  trans : ∀ {h h' h''}, K h h' → K h' h'' → K h h''
  define : ∀ (h : Heap) id name value, K h (h.define id name value)
  addFrame : ∀ (h : Heap) frame, K h (h.addFrame frame).2
  addClosure : ∀ (h : Heap) f, K h (h.addClosure f).2
  addClass : ∀ (h : Heap) name parent frame methods,
    K h (h.addClass ⟨name, parent, Evaluation.methodTable frame methods⟩).2
  addInstance : ∀ (h : Heap) i, K h (h.addInstance i).2
  setField : ∀ (h : Heap) id name value, K h (h.setField id name value)

namespace Heap.Persistent

variable {K : Heap → Heap → Prop} [Heap.Persistent K]

theorem bindValue (h : Heap) (method : Closure) (receiver : InstanceId) : K h (h.bindValue method receiver).2 :=
  trans (addFrame h _) (addClosure _ _)

theorem foldl {α : Type} {f : Heap → α → Heap} (hf : ∀ h a, K h (f h a)) (items : List α) (h : Heap) :
    K h (items.foldl f h) := by
  induction items generalizing h with
  | nil => exact refl h
  | cons a rest ih => exact trans (hf h a) (ih (f h a))

theorem copyLineage (h : Heap) (id : InstanceId) (classId : ClassId) : K h (h.copyLineage id classId) := by
  have hmethod : ∀ (h : Heap) entry, K h (h.copyMethod id entry) := fun h entry =>
    trans (bindValue h entry.2 id) (setField _ _ _ _)
  have hmethods : ∀ (h : Heap) c, K h (h.copyMethods id c) := fun h c => foldl hmethod _ h
  exact foldl hmethods _ h

end Heap.Persistent

/-- The heaps of the machines are related. -/
def Machine.Keeps (K : Heap → Heap → Prop) (m m' : Machine) : Prop := K m.heap m'.heap

section
variable {K : Heap → Heap → Prop} [Heap.Persistent K]

theorem Machine.keeps_entered? {m : Machine} {callee : Value} {arguments : List Value} {e : Entry}
    (he : m.entered? callee arguments = some e) : m.Keeps K e.machine := by
  rcases Machine.entered?_cases he with ⟨id, f, rfl, -, -, rfl⟩ | ⟨classId, method, rfl, -, -, rfl⟩
  · exact Heap.Persistent.refl _
  · exact Heap.Persistent.trans (Heap.Persistent.addInstance _ _) (Heap.Persistent.addFrame _ _)

instance : Stepwise (Machine.Keeps K) where
  refl m := Heap.Persistent.refl m.heap
  trans h h' := Heap.Persistent.trans h h'
  moves h := by
    cases h with
    | assign => exact Heap.Persistent.define _ _ _ _
    | lambda => exact Heap.Persistent.addClosure _ _
    | method => exact Heap.Persistent.bindValue _ _ _
    | field => exact Heap.Persistent.setField _ _ _ _
    | print => exact Heap.Persistent.refl _
    | binding => exact Heap.Persistent.define _ _ _ _
    | function => exact Heap.Persistent.trans (Heap.Persistent.addClosure _ _) (Heap.Persistent.define _ _ _ _)
    | classDecl => exact Heap.Persistent.trans (Heap.Persistent.addClass _ _ _ _ _) (Heap.Persistent.define _ _ _ _)
    | library => exact Heap.Persistent.define _ _ _ _
    | notice => exact Heap.Persistent.refl _
    | clock => exact Heap.Persistent.refl _
    | word => exact Heap.Persistent.refl _
    | made => exact Heap.Persistent.trans (Heap.Persistent.addInstance _ _) (Heap.Persistent.copyLineage _ _ _)
  block _ := Heap.Persistent.addFrame _ _
  entry he := Machine.keeps_entered? he
  inside _ _ := Heap.Persistent.addFrame _ _
  aside m _ _ := Heap.Persistent.refl m.heap
  flush m := Heap.Persistent.refl m.heap
  copy := Heap.Persistent.copyLineage _ _ _

variable (K)

theorem Entry.keeps_applied (e : Entry) (steps : Nat) (arguments : List Value) :
    e.machine.Keeps K (e.applied steps arguments).machine := by
  rw [Entry.applied, apply_eq, Closure.machine_conclude, Outcome.machine_onMachine]
  have hbody := (course_body e.function.routine.body (e.inside arguments)).durable
    (perform_durable (Machine.Keeps K) steps) fun _ _ hmoves => hmoves.elim
  exact Heap.Persistent.trans (Heap.Persistent.addFrame _ _) hbody.1

end

end Treewalk
