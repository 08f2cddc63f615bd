import Treewalk.Proofs.Session.Histories

/-!
What the check sees of a reference is what the machine finds when it evaluates the reference, in whichever call, loop
or later run that happens. There are as many frames around it as there were open scopes, and if a distance was recorded
for it, the frame at that distance is the one that binds its name.
-/

namespace Treewalk

open Resolver

variable {m : Machine} {id : NodeId} {token : Token} {d : Nat} {frame : FrameId}

/-- A name that is bound in the frame at the recorded distance is found. -/
theorem Run.lookUp_of_bound (hd : m.distances.find? id = some d) (hframe : m.heap.ancestor? m.frame d = some frame)
    (hb : (m.heap.getOwn? frame token.lexeme).isSome) : ∃ value, Run.lookUp id token m = .done value m := by
  obtain ⟨value, hvalue⟩ := Option.isSome_iff_exists.mp hb
  refine ⟨value, ?_⟩
  simp only [Run.lookUp, Machine.lookUp?, Machine.target?, hd, hframe, Option.bind_some, hvalue]

/-- Assigning a name that is bound in the frame at the recorded distance creates no binding. -/
theorem Run.assign_of_bound (hd : m.distances.find? id = some d) (hframe : m.heap.ancestor? m.frame d = some frame)
    (hb : (m.heap.getOwn? frame token.lexeme).isSome) (value : Value) :
    ∃ m', Run.assign id token value m = .done () m' ∧
      ∀ key x, (m'.heap.getOwn? key x).isSome = (m.heap.getOwn? key x).isSome := by
  refine ⟨m.define frame token.lexeme value, ?_, fun key x => Heap.isSome_getOwn?_define hb value key x⟩
  simp only [Run.assign, Machine.target?, hd, hframe]

/-- What the check saw at a visit is what a machine finds: the number of frames around the current one, the recorded
distance, and in the frame at that distance the name. A reference in the initializer of the variable that it means may
come too early. -/
structure Visit.Agrees (v : Visit) (m : Machine) : Prop where
  links : ∀ n, m.heap.ancestor? m.frame n = some globalFrame ↔ n = v.scopes.length
  recorded : m.distances.find? v.reference.id = distance? v.scopes v.name
  target : ∀ d, m.distances.find? v.reference.id = some d →
    ∃ frame, m.heap.ancestor? m.frame d = some frame ∧ frame ≠ globalFrame ∧
      (¬v.InOwnInitializer d → (m.heap.getOwn? frame v.name).isSome)
  found : ∀ d, m.distances.find? v.reference.id = some d → ¬v.InOwnInitializer d →
    ∃ value, Run.lookUp v.reference.id v.reference.token m = .done value m

theorem Visit.Mirrored.agrees {known : List Visit} {v : Visit} (hv : v.Mirrored m) (hm : m.Sound known)
    (hknown : v ∈ known) : v.Agrees m := by
  have hrecorded := hm.recorded v hknown
  refine ⟨hv.ancestor?_iff hm, hrecorded, fun d hd => hv.target (hrecorded ▸ hd), fun d hd hout => ?_⟩
  obtain ⟨frame, hframe, -, hbound⟩ := hv.target (hrecorded ▸ hd)
  exact Run.lookUp_of_bound hd hframe (hbound hout)

/-- In every session, whenever in the course of an accepted source a reference is evaluated, be it one of the source or
of a function from an earlier one, the check visited it once, and what it saw then agrees with the machine. If it is an
assignment with a recorded distance, it creates no binding, unless it stands in the initializer of its own variable. -/
theorem reference_frames_agree {s : Session} {past : List Visit} {source : List UInt8} {program : List Stmt}
    {steps : Nat} {e : Expr} {reference : Reference} {m : Machine} (hs : s.Reached past)
    (hprogram : (s.check source).1 = some program)
    (hreach : (s.check source).2.2.machine.Reaches steps program (.evaluate e) m)
    (he : e.reference? = some reference) :
    ∃ v ∈ past ++ s.visits source, v.reference = reference ∧ v.Agrees m ∧
      (∀ w ∈ past ++ s.visits source, w.reference.id = reference.id → w = v) ∧
      ∀ value steps' a m' d, e = .assign reference.id reference.token value →
        perform steps' (.evaluate value) m = .done a m' → m.distances.find? reference.id = some d →
        ¬v.InOwnInitializer d →
        ∃ m'', Run.assign reference.id reference.token a m' = .done () m'' ∧
          ∀ key x, (m''.heap.getOwn? key x).isSome = (m'.heap.getOwn? key x).isSome := by
  obtain ⟨hsettled, hready⟩ := hs.settled.check source
  have hplaced := hreach.placed (hready program hprogram) rfl hsettled.stands
  obtain ⟨hsound, v, hv, rfl, hmirrored⟩ := hplaced.refers he
  refine ⟨v, hv, rfl, hmirrored.agrees hsound hv, fun w hw hid => ?_, ?_⟩
  · exact List.inj_on_of_nodup_map hsettled.distinct hw hv hid
  · rintro value steps' a m' d rfl hrun hd hout
    have ho := hplaced.assigned hrun
    have hd' : m'.distances.find? v.reference.id = some d := by rw [ho.distances, hd]
    have hrecorded := (hsound.onward ho).recorded v hv
    obtain ⟨frame, hframe, -, hbound⟩ := (hmirrored.onward ho).target (hrecorded ▸ hd')
    exact Run.assign_of_bound hd' hframe (hbound hout) a

/-! ### A function that is called in a later run -/

namespace Identity

/-- A function that gives back its argument. -/
def declaration : List UInt8 := Text.encode "fun f(a) \x7b return a; \x7d"

/-- A call of the function. -/
def call : List UInt8 := Text.encode "f(nil);"

def name (lexeme : String) (offset : Nat) : Token := ⟨.identifier, lexeme, 1, offset⟩

def mark (symbol : Symbol) (offset : Nat) : Token := ⟨.symbol symbol, symbol.spelling, 1, offset⟩

/-- The reference to the argument. -/
def argument : Expr := .var 0 (name "a" 18)

def routine : Routine := ⟨name "f" 4, [name "a" 6], [.returnValue (mark .kwReturn 11) (some argument)]⟩

/-- The statement of the call. -/
def statement : Stmt := .expression (.call (.var 1 (name "f" 0)) (mark .rightParen 5) [.literal .nil])

/-- The session in which the function is declared. -/
def session : Session where
  machine := { Machine.initial with
    heap := (Machine.initialHeap.addClosure ⟨routine, globalFrame, false⟩).2.define globalFrame "f" (.closure ⟨0⟩)
    distances := Distances.record {} 0 0
    sink := { asked := 1 } }
  nextId := 1

/-- The machine within the call. -/
def machine : Machine := { session.machine with
  heap := (session.machine.heap.addFrame ⟨⟨[("a", .nil)]⟩, some globalFrame⟩).2
  frame := ⟨1⟩
  depth := 1 }

theorem scan_declaration : Token.scan declaration = [mark .kwFun 0, name "f" 4, mark .leftParen 5, name "a" 6,
    mark .rightParen 7, mark .leftBrace 9, mark .kwReturn 11, name "a" 18, mark .semicolon 19, mark .rightBrace 21,
    ⟨.finish, "", 1, 22⟩].map .ok := by
  decide +kernel

theorem scan_call : Token.scan call = [name "f" 0, mark .leftParen 1, mark .kwNil 2, mark .rightParen 5,
    mark .semicolon 6, ⟨.finish, "", 1, 7⟩].map .ok := by
  decide +kernel

theorem run_declaration : Session.run 1 {} declaration = some ({}, session) := by
  simp only [Session.run, Session.parse, Program.ofSource, scan_declaration]
  rfl

theorem check_call : (session.check call).1 = some [statement] ∧ (session.check call).2.2.machine = session.machine := by
  simp only [Session.check, Session.parse, Program.ofSource, scan_call]
  exact ⟨rfl, rfl⟩

/-- The argument is evaluated in the course of the call. -/
theorem reaches_argument : session.machine.Reaches 5 [statement] (.evaluate argument) machine := by
  have hreturn : Begins 2 (.execute (.returnValue (mark .kwReturn 11) (some argument))) machine
      (.evaluate argument) machine := by
    refine .within (asks_of_suspended (fun n h => by cases h) fun q _ hq => ?_) .self
    exact ⟨machine, Run.bind_of_stopped hq⟩
  have hinvoke : Begins 3 (.invoke (.closure ⟨0⟩) [.nil] 1) session.machine (.evaluate argument) machine := by
    refine .within (asks_of_suspended (fun n h => by cases h) fun q _ hq => ?_) hreturn
    have hbody : Evaluation.executeAll q routine.body machine = .stopped .suspended machine := by
      rw [routine, Evaluation.executeAll_cons]
      exact Run.bind_of_stopped hq
    have happly : Evaluation.apply q ⟨routine, globalFrame, false⟩ [.nil] { session.machine with depth := 1 } =
        .stopped .suspended { machine with frame := globalFrame } :=
      Evaluation.result_of_suspended (Run.inFrame_of_stopped hbody)
    exact ⟨{ machine with frame := globalFrame, depth := 0 }, Run.nested_of_stopped 1 (by decide) happly⟩
  have hcall : Begins 4 (.evaluate (.call (.var 1 (name "f" 0)) (mark .rightParen 5) [.literal .nil]))
      session.machine (.evaluate argument) machine := by
    refine .within (asks_of_suspended (fun n h => by cases h) fun q hq hsuspended => ⟨session.machine, ?_⟩) hinvoke
    have hcallee : q (.evaluate (.var 1 (name "f" 0))) session.machine = .done (.closure ⟨0⟩) session.machine :=
      hq _ _ (by simp)
    have hvalue : q (.evaluate (.literal .nil)) session.machine = .done .nil session.machine := hq _ _ (by simp)
    have hvalues : Evaluation.evaluateAll q [.literal .nil] session.machine = .done [.nil] session.machine :=
      Run.bind_of_done hvalue
    exact (Run.bind_of_done hcallee).trans ((Run.bind_of_done hvalues).trans hsuspended)
  refine .here (.within (asks_of_suspended (fun n h => by cases h) fun q _ hq => ?_) hcall)
  exact ⟨session.machine, Run.bind_of_stopped hq⟩

end Identity

/-- The argument of a function from an earlier run, within a call. -/
theorem argument_frames_agree :
    Identity.session.Reached (Session.visits {} Identity.declaration) ∧
      (Identity.session.check Identity.call).1 = some [Identity.statement] ∧
      (Identity.session.check Identity.call).2.2.machine.Reaches 5 [Identity.statement] (.evaluate Identity.argument)
        Identity.machine ∧
      Identity.machine.distances.find? 0 = some 0 ∧
      ∃ v ∈ Session.visits {} Identity.declaration ++ Identity.session.visits Identity.call,
        v.reference = ⟨.var, 0, Identity.name "a" 18⟩ ∧ v.Agrees Identity.machine := by
  have hs : Identity.session.Reached (Session.visits {} Identity.declaration) :=
    .run (.start {} {} {} []) Identity.run_declaration
  obtain ⟨hprogram, hmachine⟩ := Identity.check_call
  have hreach := Identity.reaches_argument
  rw [← hmachine] at hreach
  obtain ⟨v, hv, hreference, hagrees, -, -⟩ := reference_frames_agree hs hprogram hreach rfl
  exact ⟨hs, hprogram, hreach, rfl, v, hv, hreference, hagrees⟩

end Treewalk
