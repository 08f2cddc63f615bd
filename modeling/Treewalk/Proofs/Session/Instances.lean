import Treewalk.Proofs.Machine.Instantiation
import Treewalk.Proofs.Session.References

/-!
Instances that programs make. The methods that are copied into the fields of an instance are the very ones that a search
from its class upwards finds, for chains of any length and whatever the initializer did in between.
-/

namespace Treewalk

open Resolver

theorem Session.Reached.tidy {s : Session} {past : List Visit} (h : s.Reached past) : s.machine.heap.Tidy := by
  induction h with
  | start sink input clock host => exact fun id c hc => by simp [Machine.initial, Machine.initialHeap, Heap.class?] at hc
  | parse source _ ih => exact ih
  | @run s _ steps _ _ _ _ hrun ih =>
    obtain ⟨distances, -, ⟨-, heq⟩ | ⟨program, m, -, hended, heq⟩⟩ := Session.run_leaves hrun
    · rw [heq]
      exact ih
    · have hkeeps := Machine.interpret_stepwise (Machine.Keeps Heap.Outlasts) steps program { s.machine with distances }
      rw [hended] at hkeeps
      rw [heq]
      exact hkeeps.tidy ih
  | define name value _ ih => exact (Heap.Persistent.define (K := Heap.Outlasts) _ _ _ _).tidy ih
  | exchange sink input clock host _ ih => exact ih

/-- In every session, whenever in the course of a program that follows a check the call of a class succeeds, the result is
a new instance of this class. For each name under which a method is found in the class, the instance has under this name that
method as a field, bound to the instance in a frame that was not there before; under all other names it has what its
initializer left. The classes are as they were, so that in a chain of superclasses the methods that are found are those
of the first class that has them. -/
theorem instances_hold_found_methods {s : Session} {past : List Visit} {source : List UInt8} {program : List Stmt}
    {steps k line : Nat} {classId : ClassId} {arguments : List Value} {m m' : Machine} {outer : List Activity}
    {value : Value} (hs : s.Reached past)
    (hunder : (s.check source).2.2.machine.Underway steps program
      (⟨k + 1, .invoke (.classValue classId) arguments line, m⟩ :: outer))
    (hrun : perform (k + 1) (.invoke (.classValue classId) arguments line) m = .done value m') :
    ∃ id w, value = .object id ∧ m.heap.instance? id = none ∧ m.Initializes k classId arguments id w ∧
      (∃ i, m'.heap.instance? id = some i ∧ i.classId = classId) ∧
      Heap.Copied w.heap m'.heap id (m'.heap.findMethod? classId) ∧
      ∀ chain, m.heap.Chain classId chain → m'.heap.Chain classId chain ∧
        ∀ name, m.heap.findMethod? classId name = chain.findSome? (·.methods.get? name) ∧
          m'.heap.findMethod? classId name = chain.findSome? (·.methods.get? name) := by
  obtain ⟨distances, n, hleft, -, -⟩ := s.check_leaves source
  have htidy : m.heap.Tidy := by
    have hkeeps : Machine.Keeps Heap.Outlasts _ _ := hunder.begins
    rw [hleft] at hkeeps
    exact hkeeps.tidy hs.tidy
  obtain ⟨id, w, rfl, hinit, rfl⟩ := perform_classValue hrun
  have hcopied := hinit.copied htidy
  obtain ⟨i, hi, hclass⟩ := hinit.instance?
  obtain ⟨i', hi', hclass'⟩ := hcopied.instances i hi
  refine ⟨id, w, rfl, hinit.instance?_eq_none, hinit, ⟨i', hi', hclass'.trans hclass⟩, hcopied, fun chain hchain => ?_⟩
  have hlasts : m.heap.Outlasts (w.copyLineage id classId).heap :=
    Heap.Persistent.trans (Heap.Outlasts.addInstance m.heap _)
      (Heap.Persistent.trans hinit.outlasts (Heap.Persistent.copyLineage _ _ _))
  have hchain' := hchain.mono hlasts.classes
  exact ⟨hchain', fun name => ⟨hchain.findMethod? name, hchain'.findMethod? name⟩⟩

/-! ### A class whose initializer assigns the name of a method -/

namespace Overwriting

open Identity (name mark)

def source : List UInt8 := Text.encode "class A \x7b init() \x7b this.g = nil; \x7d g() \x7b \x7d \x7d A();"

def initializer : Routine :=
  ⟨name "init" 10, [], [.expression (.set (.this 0 (mark .kwThis 19)) (name "g" 24) (.literal .nil))]⟩

def method : Routine := ⟨name "g" 35, [], []⟩

def declaration : Stmt := .classDecl (name "A" 6) none [initializer, method]

def call : Expr := .call (.var 1 (name "A" 45)) (mark .rightParen 47) []

/-- The machine before the declaration. -/
def start : Machine := { Machine.initial with distances := Distances.record {} 0 1 }

/-- The machine behind the declaration. -/
def declared : Machine := { start with
  heap := (Machine.initialHeap.addClass ⟨"A", none, Evaluation.methodTable globalFrame [initializer, method]⟩).2.define
    globalFrame "A" (.classValue ⟨0⟩) }

theorem scan_source : Token.scan source = [mark .kwClass 0, name "A" 6, mark .leftBrace 8, name "init" 10,
    mark .leftParen 14, mark .rightParen 15, mark .leftBrace 17, mark .kwThis 19, mark .dot 23, name "g" 24,
    mark .equal 26, mark .kwNil 28, mark .semicolon 31, mark .rightBrace 33, name "g" 35, mark .leftParen 36,
    mark .rightParen 37, mark .leftBrace 39, mark .rightBrace 41, mark .rightBrace 43, name "A" 45, mark .leftParen 46,
    mark .rightParen 47, mark .semicolon 48, ⟨.finish, "", 1, 49⟩].map .ok := by
  decide +kernel

theorem check_source : (Session.check {} source).1 = some [declaration, .expression call] ∧
    (Session.check {} source).2.2.machine = start := by
  simp only [Session.check, Session.parse, Program.ofSource, scan_source]
  exact ⟨rfl, rfl⟩

theorem invoke_class : ∃ w, perform 4 (.invoke (.classValue ⟨0⟩) [] 1) declared = .done (.object ⟨0⟩) w := ⟨_, rfl⟩

/-- The initializer leaves no value under the name of the method. -/
theorem field?_left {id : InstanceId} {w : Machine} (h : declared.Initializes 3 ⟨0⟩ [] id w) :
    w.heap.field? ⟨0⟩ "g" = some .nil := by
  have hfind : declared.heap.findMethod? ⟨0⟩ initializerName = some ⟨initializer, globalFrame, true⟩ := rfl
  have hrun : ∃ w, (declared.initializerEntry ⟨0⟩ ⟨initializer, globalFrame, true⟩).applied 3 [] =
      .done (.object ⟨0⟩) w ∧ w.heap.field? ⟨0⟩ "g" = some .nil := ⟨_, rfl, rfl⟩
  obtain ⟨w', hrun, hfield⟩ := hrun
  cases h with
  | nothing hnone => cases hfind.symm.trans hnone
  | applied hmethod happlied =>
    cases hfind.symm.trans hmethod
    cases hrun.symm.trans happlied
    exact hfield

theorem underway : start.Underway 6 [declaration, .expression call]
    [⟨4, .invoke (.classValue ⟨0⟩) [] 1, declared⟩, ⟨5, .evaluate call, declared⟩,
      ⟨6, .execute (.expression call), declared⟩] := by
  have hnext : start.next? 6 declaration = some declared := rfl
  exact .later hnext (.ofCall rfl)

end Overwriting

/-- The initializer of the class leaves no value under the name of the method, but the instance has the method there. -/
theorem overwritten_method_is_held : ∃ w i m,
    Session.Reached {} [] ∧
    (Session.check {} Overwriting.source).2.2.machine.Underway 6 [Overwriting.declaration, .expression Overwriting.call]
      [⟨4, .invoke (.classValue ⟨0⟩) [] 1, Overwriting.declared⟩, ⟨5, .evaluate Overwriting.call, Overwriting.declared⟩,
        ⟨6, .execute (.expression Overwriting.call), Overwriting.declared⟩] ∧
    perform 4 (.invoke (.classValue ⟨0⟩) [] 1) Overwriting.declared = .done (.object ⟨0⟩) m ∧
    Overwriting.declared.Initializes 3 ⟨0⟩ [] ⟨0⟩ w ∧ w.heap.field? ⟨0⟩ "g" = some .nil ∧
    m.heap.instance? ⟨0⟩ = some i ∧ i.classId = ⟨0⟩ ∧
    ∃ frame, Heap.Holds w.heap m.heap ⟨0⟩ "g" ⟨Overwriting.method, globalFrame, false⟩ frame := by
  have hs : Session.Reached {} [] := .start {} {} {} []
  obtain ⟨-, hmachine⟩ := Overwriting.check_source
  have hunder := Overwriting.underway
  rw [← hmachine] at hunder
  obtain ⟨m, hrun⟩ := Overwriting.invoke_class
  obtain ⟨id, w, hvalue, -, hinit, ⟨i, hi, hclass⟩, hcopied, hchains⟩ := instances_hold_found_methods hs hunder hrun
  cases hvalue
  obtain ⟨frame, hholds, -⟩ := hcopied.methods
  obtain ⟨-, hfound⟩ := hchains _ (.root rfl rfl)
  have hfind : m.heap.findMethod? ⟨0⟩ "g" = some ⟨Overwriting.method, globalFrame, false⟩ := (hfound "g").2
  exact ⟨w, i, m, hs, hunder, hrun, hinit, Overwriting.field?_left hinit, hi, hclass, frame "g", hholds "g" _ hfind⟩

end Treewalk
