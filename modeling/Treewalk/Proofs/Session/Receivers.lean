import Treewalk.Proofs.Machine.Enclosure
import Treewalk.Proofs.Scope.Confinement
import Treewalk.Proofs.Session.References

/-!
The receiver that methods mention. Wherever and whenever it is evaluated, it is the instance to which the method was bound
whose activation is around it; and what an initializer returns that runs off its end is this instance too.
-/

namespace Treewalk

open Resolver Grammar

/-! ### Chronicles -/

namespace Session

/-- At some moment of the run of the source the activity is under way. -/
def Runs (s : Session) (steps : Nat) (source : List UInt8) (a : Activity) : Prop :=
  ∃ program below, (s.check source).1 = some program ∧
    (s.check source).2.2.machine.Underway steps program (a :: below)

/-- A session with a history, as in `Reached`, and all activities in it. -/
inductive Chronicle : Session → (Activity → Prop) → Prop where
  | start (sink : Sink) (input : Input) (clock : Clock) (host : List HostFunction) :
      Chronicle { machine := { Machine.initial with sink, input, clock, host } } fun _ => False
  | parse {s seen} (source : List UInt8) : Chronicle s seen → Chronicle (s.parse source).2.2 seen
  | run {s seen steps source diagnostics s'} : Chronicle s seen → run steps s source = some (diagnostics, s') →
      Chronicle s' fun a => seen a ∨ s.Runs steps source a
  | define {s seen} (name : String) (value : Value) : Chronicle s seen →
      Chronicle { s with machine := s.machine.define globalFrame name value } seen
  | exchange {s seen} (sink : Sink) (input : Input) (clock : Clock) (host : List HostFunction) : Chronicle s seen →
      Chronicle { s with machine := { s.machine with sink, input, clock, host } } seen

variable {s : Session} {seen : Activity → Prop}

theorem Chronicle.reached (h : s.Chronicle seen) : ∃ past, s.Reached past := by
  induction h with
  | start sink input clock host => exact ⟨[], .start sink input clock host⟩
  | parse source _ ih =>
    obtain ⟨past, hpast⟩ := ih
    exact ⟨past, hpast.parse source⟩
  | run _ hrun ih =>
    obtain ⟨past, hpast⟩ := ih
    exact ⟨_, hpast.run hrun⟩
  | define name value _ ih =>
    obtain ⟨past, hpast⟩ := ih
    exact ⟨past, hpast.define name value⟩
  | exchange sink input clock host _ ih =>
    obtain ⟨past, hpast⟩ := ih
    exact ⟨past, hpast.exchange sink input clock host⟩

theorem Runs.closed (s : Session) (steps : Nat) (source : List UInt8) (h : Activity.Closed seen) :
    Activity.Closed fun a => seen a ∨ s.Runs steps source a := by
  rintro a b (hseen | ⟨program, below, hprogram, hunder⟩) hasks
  · exact Or.inl (h a b hseen hasks)
  · exact Or.inr ⟨program, a :: below, hprogram, hunder.within hasks⟩

theorem named_of_check {source : List UInt8} {program : List Stmt} (h : (s.check source).1 = some program) :
    Stmt.AllNamed program ∧ Stmt.allReceivers program = [] := by
  rcases check_cases s source with ⟨n, -, hnone, -⟩ | ⟨statements, n, checked, hderives, rfl, -, hcases⟩
  · cases hnone.symm.trans h
  · rcases hcases with ⟨hnone, -⟩ | ⟨hsome, hclean⟩
    · cases hnone.symm.trans h
    · cases hsome.symm.trans h
      exact ⟨hderives.named_source, Stmt.allReceivers_eq_nil hderives.shaped hclean rfl⟩

/-- A chronicle holds all that its activities ask for, and the heap of the session is situated in it. -/
theorem Chronicle.situated (h : s.Chronicle seen) :
    Activity.Closed seen ∧ s.machine.heap.Situated seen := by
  induction h with
  | start sink input clock host =>
    refine ⟨fun _ _ hseen => hseen.elim, by simp [Machine.initial, Machine.initialHeap], fun id f hf => ?_, fun method hm => ?_⟩
    · simp [Machine.initial, Machine.initialHeap, Heap.closure?] at hf
    · obtain ⟨id, c, name, hc, -⟩ := hm
      simp [Machine.initial, Machine.initialHeap, Heap.class?] at hc
  | parse source _ ih => exact ih
  | @run s seen steps source diagnostics s' _ hrun ih =>
    have hclosed := Runs.closed s steps source ih.1
    have hs := ih.2.mono fun b => (Or.inl : seen b → seen b ∨ s.Runs steps source b)
    refine ⟨hclosed, ?_⟩
    obtain ⟨distances, hleft, ⟨-, heq⟩ | ⟨program, m, hprogram, hended, heq⟩⟩ := run_leaves hrun
    · rw [heq]
      exact hs
    · obtain ⟨hnamed, hreceivers⟩ := named_of_check hprogram
      have hadvances := Machine.interpret_advances (m := { s.machine with distances }) hclosed
        (fun b below hb => Or.inr ⟨program, below, hprogram, hleft ▸ hb⟩) hs hnamed hreceivers
      rw [hended] at hadvances
      rw [heq]
      exact hadvances.situated
  | define name value _ ih => exact ⟨ih.1, (ih.2.define value (Or.inl rfl)).situated⟩
  | exchange sink input clock host _ ih => exact ih

/-- All that runs is situated, in the chronicle with this run. -/
theorem Chronicle.situated_of_runs (h : s.Chronicle seen) {steps : Nat} {source : List UInt8} {a : Activity}
    (ha : s.Runs steps source a) : a.Situated fun b => seen b ∨ s.Runs steps source b := by
  obtain ⟨program, below, hprogram, hunder⟩ := ha
  obtain ⟨hclosed, hs⟩ := h.situated
  obtain ⟨hnamed, hreceivers⟩ := named_of_check hprogram
  obtain ⟨distances, n, hleft, -, -⟩ := check_leaves s source
  refine hunder.situated (Runs.closed s steps source hclosed) (fun b below hb => ?_) ?_ hnamed hreceivers
  · exact Or.inr ⟨program, below, hprogram, hb⟩
  · rw [hleft]
    exact hs.mono fun b => Or.inl

end Session

/-! ### Receivers -/

theorem Heap.ancestor?_parent? {h : Heap} {id target parent : FrameId} {n : Nat}
    (htarget : h.ancestor? id n = some target) (hparent : h.parent? target = some parent) :
    h.ancestor? id (n + 1) = some parent := by
  induction n generalizing id with
  | zero =>
    cases htarget
    exact Option.bind_eq_some_iff.mpr ⟨parent, hparent, rfl⟩
  | succ n ih =>
    obtain ⟨next, hnext, hrest⟩ := Option.bind_eq_some_iff.mp htarget
    exact Option.bind_eq_some_iff.mpr ⟨next, hnext, ih hrest⟩

/-- The check found the receiver right around the body of the method, and there the machine finds it. -/
theorem Activation.Standing.lookUp {seen : Activity → Prop} {known : List Visit} {m : Machine} {a : Activation}
    {node : NodeId} {keyword : Token} {depth : Nat} (ha : a.Standing seen m.heap) (hs : m.heap.Situated seen)
    (hm : m.Sound known) (hframe : m.heap.ancestor? m.frame depth = some a.frame)
    (hmem : ⟨node, keyword, depth⟩ ∈ a.receivers) (hname : keyword.lexeme = receiverName) :
    Run.lookUp node keyword m = .done (.object a.receiver) m := by
  obtain ⟨method, hmethod, hroutine⟩ := ha.boundTo.method
  have hnamed := hs.methods method hmethod
  have hfound : Mention.Found 1 a.receivers known := by
    obtain ⟨classId, c, name, hc, hentry⟩ := hmethod
    rw [Activation.receivers, hroutine]
    exact (hm.heap.methods classId c hc _ hentry).found hnamed
  obtain ⟨v, hv, hreference, hdistance⟩ := hfound _ hmem
  have hrecorded : m.distances.find? node = some (depth + 1) := by
    rw [← hdistance, ← hm.recorded v hv, hreference]
  have htarget := Heap.ancestor?_parent? hframe ha.parent?
  have hvalue : m.lookUp? node keyword.lexeme = some (.object a.receiver) := by
    rw [Machine.lookUp?, Machine.target?, hrecorded, hname]
    exact Option.bind_eq_some_iff.mpr ⟨_, htarget, ha.boundTo.getOwn?⟩
  simp only [Run.lookUp, hvalue]

/-- In every session, whenever in the course of an accepted source a mention of the receiver is evaluated, it yields the one
instance to which the method was bound that holds the mention, of which an activation is around it, in this run or an
earlier one; be it that of the method itself, or of functions within it, which may outlast it. An initializer is bound to
an instance too, which is the new one if the class was called, and returns it where it runs off its end. -/
theorem receiver_is_bound_instance {s : Session} {seen : Activity → Prop} {source : List UInt8} {program : List Stmt}
    {steps : Nat} {a : Activity} {outer : List Activity} (hs : s.Chronicle seen)
    (hprogram : (s.check source).1 = some program)
    (h : (s.check source).2.2.machine.Underway steps program (a :: outer)) :
    (∀ k node keyword m, a = ⟨k + 1, .evaluate (.this node keyword), m⟩ →
      ∃ (method : Activation) (depth : Nat), method.Standing (fun b => seen b ∨ s.Runs steps source b) m.heap ∧
        m.heap.ancestor? m.frame depth = some method.frame ∧ ⟨node, keyword, depth⟩ ∈ method.receivers ∧
        (∀ receiver, m.heap.BoundTo method.entry.function receiver ↔ receiver = method.receiver) ∧
        perform (k + 1) (.evaluate (.this node keyword)) m = .done (.object method.receiver) m) ∧
    ∀ k callee arguments line m e, a = ⟨k + 1, .invoke callee arguments line, m⟩ →
      m.entered? callee arguments = some e → m.depth < depthLimit → e.function.isInitializer →
      ∃ receiver, e.machine.heap.BoundTo e.function receiver ∧
        (∀ id classId, e.made = some (id, classId) → receiver = id) ∧
        ∀ w, Evaluation.executeAll (perform k) e.function.routine.body (e.inside arguments) = .done () w →
          e.applied k arguments = .done (.object receiver) (w.inFrame e.machine.frame) ∧
          ∃ w', perform (k + 1) (.invoke callee arguments line) m = .done (.object receiver) w' := by
  obtain ⟨hclosed, -⟩ := hs.situated
  obtain ⟨past, hreached⟩ := hs.reached
  have hruns : s.Runs steps source a := ⟨program, outer, hprogram, h⟩
  have hsituated := hs.situated_of_runs hruns
  refine ⟨?_, ?_⟩
  · rintro k node keyword m rfl
    obtain ⟨hsettled, hready⟩ := hreached.settled.check source
    have hplaced := h.placed (hready program hprogram) rfl hsettled.stands
    obtain ⟨hsound, -⟩ := hplaced.refers rfl
    obtain ⟨method, depth, hstanding, hframe, hmem⟩ := hsituated.task.receivers ⟨node, keyword, 0⟩ (List.mem_singleton_self _)
    have hmem : ⟨node, keyword, depth⟩ ∈ method.receivers := by
      simpa only [Mention.deeper, Nat.zero_add] using hmem
    refine ⟨method, depth, hstanding, hframe, hmem, fun receiver => ⟨fun hbound => hbound.unique hstanding.boundTo, ?_⟩, ?_⟩
    · rintro rfl
      exact hstanding.boundTo
    · exact hstanding.lookUp hsituated.heap hsound hframe hmem hsituated.task.named
  · rintro k callee arguments line m e rfl he hd hinitializer
    exact hsituated.initializer (Session.Runs.closed s steps source hclosed) (Or.inr hruns) he hd hinitializer

/-! ### A function that outlasts the method in which it was made -/

namespace Outlasting

open Identity (name mark)

def source : List UInt8 :=
  Text.encode "class A \x7b m() \x7b return fun () \x7b return this; \x7d; \x7d \x7d A().m()();"

def mention : Expr := .this 0 (mark .kwThis 39)

def answer : Stmt := .returnValue (mark .kwReturn 32) (some mention)

def inner : Routine := ⟨anonymousName (mark .kwFun 23), [], [answer]⟩

def method : Routine := ⟨name "m" 10, [], [.returnValue (mark .kwReturn 16) (some (.lambda inner))]⟩

def declaration : Stmt := .classDecl (name "A" 6) none [method]

def callee : Expr :=
  .call (.get (.call (.var 1 (name "A" 52)) (mark .rightParen 54) []) (name "m" 56)) (mark .rightParen 58) []

def call : Expr := .call callee (mark .rightParen 60) []

theorem scan_source : Token.scan source = [mark .kwClass 0, name "A" 6, mark .leftBrace 8, name "m" 10,
    mark .leftParen 11, mark .rightParen 12, mark .leftBrace 14, mark .kwReturn 16, mark .kwFun 23, mark .leftParen 27,
    mark .rightParen 28, mark .leftBrace 30, mark .kwReturn 32, mark .kwThis 39, mark .semicolon 43,
    mark .rightBrace 45, mark .semicolon 46, mark .rightBrace 48, mark .rightBrace 50, name "A" 52, mark .leftParen 53,
    mark .rightParen 54, mark .dot 55, name "m" 56, mark .leftParen 57, mark .rightParen 58, mark .leftParen 59,
    mark .rightParen 60, mark .semicolon 61, ⟨.finish, "", 1, 62⟩].map .ok := by
  decide +kernel

/-- The machine before the declaration. -/
def start : Machine := { Machine.initial with distances := Distances.record {} 0 2 }

/-- The machine behind the declaration. -/
def declared : Machine := { start with
  heap := (Machine.initialHeap.addClass ⟨"A", none, Evaluation.methodTable globalFrame [method]⟩).2.define
    globalFrame "A" (.classValue ⟨0⟩) }

/-- The machine behind the call of the method, which is over. -/
def kept : Machine := (perform 4 (.evaluate callee) declared).machine

/-- The entry into the function that the method made. -/
def entry : Entry := ⟨⟨inner, ⟨2⟩, false⟩, kept, none⟩

theorem check_source : (Session.check {} source).1 = some [declaration, .expression call] ∧
    (Session.check {} source).2.2.machine = start := by
  simp only [Session.check, Session.parse, Program.ofSource, scan_source]
  exact ⟨rfl, rfl⟩

theorem evaluate_callee : perform 4 (.evaluate callee) declared = .done (.closure ⟨1⟩) kept := rfl

theorem evaluate_mention : perform 2 (.evaluate mention) (entry.inside []) = .done (.object ⟨0⟩) (entry.inside []) := rfl

/-- The mention is under way in the function, behind the method. -/
theorem underway : start.Underway 6 [declaration, .expression call]
    [⟨2, .evaluate mention, entry.inside []⟩, ⟨3, .execute answer, entry.inside []⟩,
      ⟨4, .invoke (.closure ⟨1⟩) [] 1, kept⟩, ⟨5, .evaluate call, declared⟩,
      ⟨6, .execute (.expression call), declared⟩] := by
  have hnext : start.next? 6 declaration = some declared := rfl
  have hcall : start.Underway 6 [declaration, .expression call] [⟨4, .invoke (.closure ⟨1⟩) [] 1, kept⟩,
      ⟨5, .evaluate call, declared⟩, ⟨6, .execute (.expression call), declared⟩] :=
    .later hnext (.ofCall evaluate_callee)
  have he : kept.entered? (.closure ⟨1⟩) [] = some entry := rfl
  have hd : kept.depth < depthLimit := by decide
  have hanswer : Activity.AsksFor ⟨3, .execute answer, entry.inside []⟩ ⟨2, .evaluate mention, entry.inside []⟩ :=
    .intro (steers_bind (.evaluate mention)).asks
  exact (hcall.within (Activity.asksFor_entered he hd rfl)).within hanswer

end Outlasting

/-- A function that a method made and returned mentions the receiver of the method when the method is over. -/
theorem kept_function_mentions_receiver :
    Session.Chronicle {} (fun _ => False) ∧
      (Session.check {} Outlasting.source).1 = some [Outlasting.declaration, .expression Outlasting.call] ∧
      Session.Runs {} 6 Outlasting.source ⟨2, .evaluate Outlasting.mention, Outlasting.entry.inside []⟩ ∧
      ∃ (method : Activation) (depth : Nat),
        method.Standing (fun b => False ∨ Session.Runs {} 6 Outlasting.source b) (Outlasting.entry.inside []).heap ∧
        (Outlasting.entry.inside []).heap.ancestor? (Outlasting.entry.inside []).frame depth = some method.frame ∧
        ⟨0, Identity.mark .kwThis 39, depth⟩ ∈ method.receivers ∧ method.receiver = ⟨0⟩ ∧
        perform 2 (.evaluate Outlasting.mention) (Outlasting.entry.inside []) =
          .done (.object ⟨0⟩) (Outlasting.entry.inside []) := by
  have hs : Session.Chronicle {} fun _ => False := .start {} {} {} []
  obtain ⟨hprogram, hmachine⟩ := Outlasting.check_source
  have hunder := Outlasting.underway
  rw [← hmachine] at hunder
  obtain ⟨method, depth, hstanding, hframe, hmem, -, hrun⟩ :=
    (receiver_is_bound_instance hs hprogram hunder).1 1 0 (Identity.mark .kwThis 39) _ rfl
  obtain ⟨hvalue, -⟩ := Outcome.done.inj (hrun.symm.trans Outlasting.evaluate_mention)
  have hreceiver : method.receiver = ⟨0⟩ := Value.object.inj hvalue
  exact ⟨hs, hprogram, ⟨_, _, hprogram, hunder⟩, method, depth, hstanding, hframe, hmem, hreceiver,
    Outlasting.evaluate_mention⟩

end Treewalk
