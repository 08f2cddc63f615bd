import Treewalk.Proofs.Heap.Chains
import Treewalk.Proofs.Machine.Custody
import Treewalk.Proofs.Session.Receivers

/-!
Superclasses. A class is made of a superclass that the heap already has, since programs only come by values that mention
what is there; and classes never change. So from every class that a program can come by, superclasses lead to one that has
none, whatever names were bound anew in between.
-/

namespace Treewalk

namespace Heap

/-! ### Heaps without dangling mentions -/

/-- From each class, superclasses lead to one that has none. -/
def Descends (h : Heap) : Prop := ∀ id, h.Has (.kind id) → ∃ chain, h.Chain id chain

/-- The second heap has all cells of the first one, and superclasses of its classes come to an end if those of the first
one do. -/
structure Continues (h h' : Heap) : Prop where
  cells : ∀ p, h.Has p → h'.Has p
  descends : h.Descends → h'.Descends

theorem Continues.of_classes {h h' : Heap} (hcells : ∀ p, h.Has p → h'.Has p) (hclasses : h'.classes = h.classes) :
    h.Continues h' := by
  refine ⟨hcells, fun hd id hid => ?_⟩
  have hid' : h.Has (.kind id) := by
    rw [Has, ← hclasses]
    exact hid
  obtain ⟨chain, hchain⟩ := hd id hid'
  exact ⟨chain, hchain.mono fun key c hc => by rw [class?, hclasses]; exact hc⟩

/-- A class whose superclass the heap has. -/
theorem Continues.addClass {h : Heap} {c : Class} (hc : ∀ p, c.Mentions p → h.Has p) : h.Continues (h.addClass c).2 := by
  have hold : ∀ id c', h.class? id = some c' → (h.addClass c).2.class? id = some c' := by
    intro id c' hc'
    have hlt := (Array.getElem?_eq_some_iff.mp hc').1
    rw [class?, Heap.addClass, Array.getElem?_push, if_neg (Nat.ne_of_lt hlt)]
    exact hc'
  refine ⟨fun _ hp => hp.addClass c, fun hd id hid => ?_⟩
  by_cases hnew : h.Has (.kind id)
  · obtain ⟨chain, hchain⟩ := hd id hnew
    exact ⟨chain, hchain.mono hold⟩
  · have hlt : id.index < h.classes.size + 1 := Nat.lt_of_lt_of_eq hid (Array.size_push c)
    have hindex : id.index = h.classes.size := Nat.le_antisymm (Nat.le_of_lt_succ hlt) (Nat.not_lt.mp hnew)
    have hself : (h.addClass c).2.class? id = some c := by
      rw [class?, Heap.addClass, Array.getElem?_push, if_pos hindex]
    cases hparent : c.superclass with
    | none => exact ⟨[c], .root hself hparent⟩
    | some parent =>
      obtain ⟨chain, hchain⟩ := hd parent (hc _ (Or.inl ⟨parent, hparent, rfl⟩))
      exact ⟨c :: chain, .sub hself hparent (hchain.mono hold)⟩

instance (base : Heap) : Custody Has Continues base where
  refl _ := ⟨fun _ => id, id⟩
  trans a b := ⟨fun p hp => b.cells p (a.cells p hp), fun hd => b.descends (a.descends hd)⟩
  mono a hp := a.cells _ hp
  earlier _ hp _ := hp
  define {_ id name value} _ _ _ := .of_classes (fun _ hp => hp.define id name value) rfl
  setField {_ id name value} _ _ _ := .of_classes (fun _ hp => hp.setField id name value) rfl
  addFrame {_ f} _ _ :=
    ⟨.of_classes (fun _ hp => hp.addFrame f) rfl, Nat.lt_of_lt_of_eq (Nat.lt_succ_self _) (Array.size_push f).symm⟩
  addClosure {_ f} _ _ :=
    ⟨.of_classes (fun _ hp => hp.addClosure f) rfl, Nat.lt_of_lt_of_eq (Nat.lt_succ_self _) (Array.size_push f).symm⟩
  addClass {_ c} _ hc := ⟨.addClass hc, Nat.lt_of_lt_of_eq (Nat.lt_succ_self _) (Array.size_push c).symm⟩
  addInstance {_ i} _ _ :=
    ⟨.of_classes (fun _ hp => hp.addInstance i) rfl, Nat.lt_of_lt_of_eq (Nat.lt_succ_self _) (Array.size_push i).symm⟩

/-- From the class, superclasses lead to one that has none. The walk along them ends there, however far it may go, and so do
the searches that follow it. -/
def Rooted (h : Heap) (id : ClassId) : Prop :=
  ∃ chain, h.Chain id chain ∧ (∀ count, chain.length ≤ count → h.ancestryUpTo count id = chain) ∧
    h.lineage id = chain.reverse ∧
    ∀ name, h.findMethod? id name = chain.findSome? (·.methods.get? name) ∧
      h.classArity id name = ((chain.findSome? (·.methods.get? name)).map (·.arity)).getD 0

theorem Chain.rooted {h : Heap} {id : ClassId} {chain : List Class} (hchain : h.Chain id chain) : h.Rooted id := by
  refine ⟨chain, hchain, fun count => hchain.ancestryUpTo, by rw [lineage, hchain.ancestry], fun name => ?_⟩
  exact ⟨hchain.findMethod? name, by rw [classArity, hchain.findMethod?]⟩

/-- The class stands in the heap, or something in the heap mentions it: a binding, a field, an item of an array, a class
or an instance. -/
def Shows (h : Heap) (id : ClassId) : Prop := h.Has (.kind id) ∨ ∃ p, h.Links p (.kind id)

end Heap

/-- All that the machine mentions are cells that its heap has, since the start of the session. -/
abbrev Machine.Grounded (m : Machine) : Prop := m.Held Heap.Has Heap.Continues Machine.initialHeap

namespace Machine.Grounded

variable {m : Machine} {id : ClassId}

theorem descends (hm : m.Grounded) : m.heap.Descends :=
  hm.since.descends fun _ hid => absurd hid (Nat.not_lt_zero _)

theorem rooted (hm : m.Grounded) (hid : m.heap.Has (.kind id)) : m.heap.Rooted id := by
  obtain ⟨chain, hchain⟩ := descends hm id hid
  exact hchain.rooted

theorem shows (hm : m.Grounded) (hid : m.heap.Shows id) : m.heap.Rooted id := by
  rcases hid with hid | ⟨p, hp⟩
  · exact rooted hm hid
  · exact rooted hm (hm.closed p _ hp.has hp)

end Machine.Grounded

/-! ### Classes in the course of a run -/

/-- The class is one that a program comes by in the activity, on the heap that there is then: the heap shows it where the
activity begins or ends, a function is called on it, or it is in what the activity comes to. -/
inductive Activity.Meets (id : ClassId) : Activity → Heap → Prop where
  | before {a} : a.machine.heap.Shows id → Meets id a a.machine.heap
  | after {a} : a.outcome.machine.heap.Shows id → Meets id a a.outcome.machine.heap
  | called {k callee arguments line m value} : value ∈ callee :: arguments → value.Mentions (.kind id) →
      Meets id ⟨k, .invoke callee arguments line, m⟩ m.heap
  | evaluated {k e m value w} : perform k (.evaluate e) m = .done value w → Value.Mentions value (.kind id) →
      Meets id ⟨k, .evaluate e, m⟩ w.heap
  | answered {k callee arguments line m value w} : perform k (.invoke callee arguments line) m = .done value w →
      Value.Mentions value (.kind id) → Meets id ⟨k, .invoke callee arguments line, m⟩ w.heap
  | returned {a value w} : a.outcome = .stopped (.returned value) w → value.Mentions (.kind id) → Meets id a w.heap

theorem Activity.Meets.rooted {a : Activity} {h : Heap} {id : ClassId} (hmeets : a.Meets id h)
    (ha : a.Held Heap.Has Heap.Continues Machine.initialHeap) : h.Rooted id := by
  have houtcome := ha.outcome
  cases hmeets with
  | before hid => exact Machine.Grounded.shows ha.machine hid
  | after hid => exact Machine.Grounded.shows ha.secures.after hid
  | called hvalue hid =>
    refine Machine.Grounded.rooted ha.machine ?_
    rcases List.mem_cons.mp hvalue with rfl | hvalue
    · exact ha.within.1 _ hid
    · exact ha.within.2 _ hvalue _ hid
  | evaluated hrun hid =>
    simp only [outcome, hrun] at houtcome
    exact Machine.Grounded.rooted houtcome.1.after (houtcome.2 _ hid)
  | answered hrun hid =>
    simp only [outcome, hrun] at houtcome
    exact Machine.Grounded.rooted houtcome.1.after (houtcome.2 _ hid)
  | returned hrun hid =>
    rw [hrun] at houtcome
    exact Machine.Grounded.rooted houtcome.secures.after (houtcome.returned _ rfl _ hid)

namespace Session

/-- A session that arose from runs. It may have any channels and host functions, which may be exchanged between runs, and
global names may be bound to values of its heap. -/
inductive Arises : Session → Prop where
  | start (sink : Sink) (input : Input) (clock : Clock) (host : List HostFunction) :
      Arises { machine := { Machine.initial with sink, input, clock, host } }
  | parse {s} (source : List UInt8) : Arises s → Arises (s.parse source).2.2
  | run {s steps source diagnostics s'} : Arises s → run steps s source = some (diagnostics, s') → Arises s'
  | define {s} (name : String) {value : Value} : Arises s → value.Within s.machine.heap.Has →
      Arises { s with machine := s.machine.define globalFrame name value }
  | exchange {s} (sink : Sink) (input : Input) (clock : Clock) (host : List HostFunction) : Arises s →
      Arises { s with machine := { s.machine with sink, input, clock, host } }

/-- Native functions mention nothing. -/
theorem not_mentions_preloaded (p : Cell) :
    ¬Table.Mentions (Table.putAll {} (Library.preloaded.map fun f => (f.name, Value.native f))) p := by
  rintro ⟨name, value, hmem, hp⟩
  rcases Table.mem_putAll hmem with hmem | hmem
  · obtain ⟨native, -, heq⟩ := List.mem_map.mp hmem
    cases heq
    cases hp
  · cases hmem

theorem grounded_initial : Machine.initial.Grounded := by
  refine ⟨⟨Heap.Custody.refl Heap.Has Machine.initialHeap _, fun p q _ hl => ?_⟩, Nat.one_pos, Nat.one_pos⟩
  cases hl with
  | @frame id f _ hf hq =>
    obtain rfl : f = { bindings := Table.putAll {} (Library.preloaded.map fun f => (f.name, .native f)) } := by
      have hlt : id.index < 1 := (Array.getElem?_eq_some_iff.mp hf).1
      have hindex : id.index = 0 := Nat.lt_one_iff.mp hlt
      simp only [Heap.frame?, Machine.initial, Machine.initialHeap, hindex] at hf
      exact (Option.some.inj hf).symm
    rcases hq with hq | ⟨parent, hparent, -⟩
    · exact absurd hq (not_mentions_preloaded q)
    · cases hparent
  | function hf _ => exact absurd (Array.getElem?_eq_some_iff.mp hf).1 (Nat.not_lt_zero _)
  | kind hc _ => exact absurd (Array.getElem?_eq_some_iff.mp hc).1 (Nat.not_lt_zero _)
  | object hi _ => exact absurd (Array.getElem?_eq_some_iff.mp hi).1 (Nat.not_lt_zero _)

variable {s : Session}

theorem Arises.grounded (h : s.Arises) : s.machine.Grounded := by
  induction h with
  | start sink input clock host => exact grounded_initial.of_eq rfl rfl
  | parse source _ ih => exact ih
  | @run s _ _ _ _ _ hrun ih =>
    obtain ⟨distances, -, ⟨-, heq⟩ | ⟨program, m, -, rfl, heq⟩⟩ := run_leaves hrun
    · rw [heq]
      exact ih.of_eq rfl rfl
    · have hchecked : { s.machine with distances }.Grounded := ih.of_eq rfl rfl
      rw [heq]
      exact hchecked.interpret.after.of_eq rfl rfl
  | define name _ hvalue ih => exact (ih.defineIn name ih.outermost hvalue).after
  | exchange sink input clock host _ ih => exact ih.of_eq rfl rfl

theorem Arises.held_of_runs (h : s.Arises) {steps : Nat} {source : List UInt8} {a : Activity}
    (ha : s.Runs steps source a) : a.Held Heap.Has Heap.Continues Machine.initialHeap := by
  obtain ⟨program, below, -, hunder⟩ := ha
  obtain ⟨distances, n, hleft, -, -⟩ := check_leaves s source
  rw [hleft] at hunder
  exact hunder.held (h.grounded.of_eq rfl rfl)

end Session

/-- In every session that arose from runs, and at every moment of every run in it, superclasses lead from each class that
there is, or that any binding, field, argument or result mentions, to one that has none, in finitely many steps. So the
searches for methods, the number of arguments of a class and its lineage are those along this chain, which no bound cuts
off. -/
theorem superclass_chains_end {s : Session} (hs : s.Arises) :
    (∀ id, s.machine.heap.Shows id → s.machine.heap.Rooted id) ∧
    ∀ steps source a, s.Runs steps source a → ∀ id h, a.Meets id h → h.Rooted id :=
  ⟨fun _ => Machine.Grounded.shows hs.grounded, fun _ _ _ ha _ _ hmeets => hmeets.rooted (hs.held_of_runs ha)⟩

/-! ### A class under the name of its own ancestor -/

/-- Three classes that stand on one another, the later ones on the earlier ones. -/
def redeclaration : List UInt8 := Text.encode "class A \x7b\x7d class B < A \x7b\x7d class A < B \x7b\x7d"

/-- The class that is bound to the name of its own ancestor has this one at the end of its chain. -/
theorem redeclared_class_is_rooted : ∃ s, Session.run 2 {} redeclaration = some ({}, s) ∧
    s.machine.heap.Rooted ⟨2⟩ ∧ (s.machine.heap.lineage ⟨2⟩).map (·.name) = ["A", "B", "A"] := by
  have hresult : (Session.run 2 {} redeclaration).map (fun x =>
      (x.1, x.2.machine.heap.classes.size, (x.2.machine.heap.lineage ⟨2⟩).map (·.name))) =
        some ({}, 3, ["A", "B", "A"]) := by decide +kernel
  obtain ⟨⟨diagnostics, s⟩, hrun, heq⟩ := Option.map_eq_some_iff.mp hresult
  simp only [Prod.mk.injEq] at heq
  obtain ⟨rfl, hsize, hlineage⟩ := heq
  have harises : s.Arises := .run (.start {} {} {} []) hrun
  have hshows : s.machine.heap.Shows ⟨2⟩ := Or.inl (by rw [Heap.Has, hsize]; decide)
  exact ⟨s, hrun, (superclass_chains_end harises).1 ⟨2⟩ hshows, hlineage⟩

end Treewalk
