import Treewalk.Proofs.Heap.Chains
import Treewalk.Proofs.Heap.Copying
import Treewalk.Proofs.Machine.Persistence

/-!
Making instances. Whatever the initializer does, it leaves the new instance as one of its class, and classes as they
were; so the methods that are copied behind it are those that were found in the class before.
-/

namespace Treewalk

/-! ### What lasts -/

/-- Classes stay what they are, instances stay of their classes, frames are only added, and no class gets two methods
with one name. -/
structure Heap.Outlasts (h h' : Heap) : Prop where
  classes : ∀ id c, h.class? id = some c → h'.class? id = some c
  instances : ∀ id i, h.instance? id = some i → ∃ i', h'.instance? id = some i' ∧ i'.classId = i.classId
  frames : h.frames.size ≤ h'.frames.size
  tidy : h.Tidy → h'.Tidy

namespace Heap.Outlasts

variable {h h' : Heap}

/-- A change of nothing but frames and functions. -/
theorem of_eq (hclasses : h'.classes = h.classes) (hinstances : h'.instances = h.instances)
    (hframes : h.frames.size ≤ h'.frames.size) : h.Outlasts h' := by
  have hclass : ∀ id, h'.class? id = h.class? id := fun id => by rw [class?, hclasses, class?]
  refine ⟨fun id c hc => (hclass id).trans hc, fun id i hi => ⟨i, ?_, rfl⟩, hframes, fun ht id c hc => ?_⟩
  · rwa [instance?, hinstances]
  · exact ht id c ((hclass id).symm.trans hc)

theorem addClass (h : Heap) (name : String) (parent : Option ClassId) (frame : FrameId) (methods : List Routine) :
    h.Outlasts (h.addClass ⟨name, parent, Evaluation.methodTable frame methods⟩).2 := by
  refine ⟨fun id c hc => ?_, fun id i hi => ⟨i, hi, rfl⟩, Nat.le_refl _, fun ht id c hc => ?_⟩
  · obtain ⟨hlt, -⟩ := Array.getElem?_eq_some_iff.mp hc
    exact (Array.getElem?_push_lt hlt).trans ((Array.getElem?_eq_getElem hlt).symm.trans hc)
  · rw [class?, Heap.addClass, Array.getElem?_push] at hc
    split at hc
    · cases hc
      exact Table.Distinct.putAll (t := {}) List.nodup_nil _
    · exact ht id c hc

theorem addInstance (h : Heap) (i : Instance) : h.Outlasts (h.addInstance i).2 := by
  refine ⟨fun _ _ hc => hc, fun id j hj => ⟨j, ?_, rfl⟩, Nat.le_refl _, fun ht => ht⟩
  obtain ⟨hlt, -⟩ := Array.getElem?_eq_some_iff.mp hj
  exact (Array.getElem?_push_lt hlt).trans ((Array.getElem?_eq_getElem hlt).symm.trans hj)

theorem setField (h : Heap) (id : InstanceId) (name : String) (value : Value) :
    h.Outlasts (h.setField id name value) := by
  refine ⟨fun _ _ hc => hc, fun key i hi => ?_, Nat.le_refl _, fun ht => ht⟩
  rw [instance?_setField, hi]
  refine ⟨_, rfl, ?_⟩
  split <;> rfl

instance : Heap.Persistent Heap.Outlasts where
  refl h := of_eq rfl rfl (Nat.le_refl _)
  trans a b := by
    refine ⟨fun id c hc => b.classes id c (a.classes id c hc), fun id i hi => ?_, Nat.le_trans a.frames b.frames,
      fun ht => b.tidy (a.tidy ht)⟩
    obtain ⟨i', hi', hclass⟩ := a.instances id i hi
    obtain ⟨i'', hi'', hclass'⟩ := b.instances id i' hi'
    exact ⟨i'', hi'', hclass'.trans hclass⟩
  define h id name value := of_eq rfl rfl (Nat.le_of_eq (Array.size_modify ..).symm)
  addFrame h frame := of_eq rfl rfl (Nat.le_of_lt (Nat.lt_of_lt_of_eq (Nat.lt_succ_self _) (Array.size_push _).symm))
  addClosure h f := of_eq rfl rfl (Nat.le_refl _)
  addClass := addClass
  addInstance := addInstance
  setField := setField

end Heap.Outlasts

/-! ### Initializers -/

/-- A new instance of the class is made, and its initializer, if there is one, leaves the second machine. -/
inductive Machine.Initializes (steps : Nat) (m : Machine) (classId : ClassId) (arguments : List Value) :
    InstanceId → Machine → Prop where
  | nothing : m.heap.findMethod? classId initializerName = none →
      Initializes steps m classId arguments (m.heap.addInstance { classId }).1
        { m with heap := (m.heap.addInstance { classId }).2 }
  | applied {method value w} : m.heap.findMethod? classId initializerName = some method →
      (m.initializerEntry classId method).applied steps arguments = .done value w →
      Initializes steps m classId arguments (m.heap.addInstance { classId }).1 (Entry.leave w)

variable {steps line : Nat} {m : Machine} {classId : ClassId} {arguments : List Value}

/-- The call of a class that succeeds has the new instance, with methods copied into its fields behind the initializer. -/
theorem perform_classValue {value : Value} {m' : Machine}
    (h : perform (steps + 1) (.invoke (.classValue classId) arguments line) m = .done value m') :
    ∃ id w, value = .object id ∧ m.Initializes steps classId arguments id w ∧ m' = w.copyLineage id classId := by
  by_cases harity : m.heap.classArity classId initializerName = arguments.length
  · cases hfind : m.heap.findMethod? classId initializerName with
    | none =>
      have hnew : (m.heap.addInstance { classId }).2.findMethod? classId initializerName = none :=
        (Heap.findMethod?_addInstance ..).trans hfind
      have hcall : Evaluation.invocation (perform steps) (.classValue classId) arguments line m = .done value m' := h
      simp only [Evaluation.invocation, Run.look_bind, if_pos harity, Evaluation.instantiate, Run.onHeap_bind, hnew] at hcall
      cases hcall
      exact ⟨_, _, rfl, .nothing hfind, rfl⟩
    | some method =>
      have he : m.entered? (.classValue classId) arguments = some (m.initializerEntry classId method) := by
        simp only [Machine.entered?, if_pos harity, hfind, Option.map_some]
      rw [perform_entered he] at h
      split at h
      · cases h
      · cases happlied : (m.initializerEntry classId method).applied steps arguments with
        | done result w =>
          rw [happlied] at h
          cases h
          exact ⟨_, _, rfl, .applied hfind happlied, rfl⟩
        | stopped signal w =>
          rw [happlied] at h
          cases h
  · have hcall : Evaluation.invocation (perform steps) (.classValue classId) arguments line m = .done value m' := h
    simp only [Evaluation.invocation, Run.look_bind, if_neg harity] at hcall
    cases hcall

namespace Machine.Initializes

variable {id : InstanceId} {w : Machine} (h : m.Initializes steps classId arguments id w)
include h

theorem outlasts : (m.heap.addInstance { classId }).2.Outlasts w.heap := by
  cases h with
  | nothing _ => exact Heap.Persistent.refl _
  | @applied method value w _ happlied =>
    have hkeeps := (m.initializerEntry classId method).keeps_applied Heap.Outlasts steps arguments
    rw [happlied] at hkeeps
    exact Heap.Persistent.trans (Heap.Persistent.addFrame _ _) hkeeps

theorem instance?_eq_none : m.heap.instance? id = none := by
  cases h <;> exact Array.getElem?_eq_none (Nat.le_refl _)

theorem instance? : ∃ i, w.heap.instance? id = some i ∧ i.classId = classId := by
  have hnew : (m.heap.addInstance { classId }).2.instance? id = some { classId } := by
    cases h <;> exact Array.getElem?_push_size
  exact h.outlasts.instances id _ hnew

/-- The methods that are copied are those that are found in the class behind the copying. -/
theorem copied (ht : m.heap.Tidy) : Heap.Copied w.heap (w.copyLineage id classId).heap id
    ((w.copyLineage id classId).heap.findMethod? classId) := by
  have htidy : w.heap.Tidy := h.outlasts.tidy ((Heap.Outlasts.addInstance m.heap _).tidy ht)
  obtain ⟨i, hi, -⟩ := h.instance?
  have hcopied := htidy.copied hi classId
  have hsame : (w.copyLineage id classId).heap.findMethod? classId = w.heap.findMethod? classId :=
    funext (Heap.findMethod?_congr hcopied.classes classId)
  rw [hsame]
  exact hcopied

end Machine.Initializes

end Treewalk
