import Treewalk.Diagnostic
import Treewalk.Machine.Evaluation

/-!
Running whole programs on a machine, from its start.
-/

namespace Treewalk

/-- The report of a failure. -/
def RuntimeError.diagnostic (e : RuntimeError) : Diagnostic :=
  .runtime e.line e.fault.message

/-- The report of a library that does not exist. -/
def MissingLibrary.diagnostic (n : MissingLibrary) : Diagnostic :=
  .missingLibrary n.path n.line

/-- A signal that nothing caught, in words. -/
def Signal.text (h : Heap) : Signal → String
  | .failed e => e.diagnostic.text
  | .returned value => "Return signal with value: " ++ value.text h
  | .broke => "Break signal"
  | .suspended => "Suspended"

/-- How running a program ends. -/
inductive Ending where
  | finished
  | failed (error : RuntimeError)
  /-- All statements ran, but the sink refused to pass on what it holds. -/
  | unflushed (reason : String)
  /-- The steps that were granted did not suffice. -/
  | suspended

namespace Ending

/-- The report of the way in which a program ended. -/
def diagnostics : Ending → List Diagnostic
  | failed e => [e.diagnostic]
  | unflushed reason => [.io reason]
  | _ => []

end Ending

namespace Machine

/-- The heap at the start: the outermost frame with the native functions. -/
def initialHeap : Heap :=
  { frames := #[{ bindings := Table.putAll {} (Library.preloaded.map fun f => (f.name, .native f)) }] }

/-- A machine at its start. -/
def initial : Machine :=
  { heap := initialHeap, frame := globalFrame }

/-- After a failure nothing runs any more. The sink is flushed, whether it lets itself or not. -/
def abandon (m : Machine) : Machine :=
  { m with depth := 0, frame := globalFrame, sink := m.sink.flush.1 }

/-- Runs statements up to the first failure. A signal that nothing caught has no effect. -/
def interpret (steps : Nat) : List Stmt → Machine → Ending × Machine
  | [], m =>
    match m.sink.flush with
    | (sink, none) => (.finished, { m with sink })
    | (sink, some reason) => (.unflushed reason, { m with sink })
  | s :: rest, m =>
    match perform steps (.execute s) m with
    | .done _ m => interpret steps rest m
    | .stopped (.failed e) m => (.failed e, m.abandon)
    | .stopped .suspended m => (.suspended, m)
    | .stopped _ m => interpret steps rest m

/-- The libraries asked for in vain since the last report, which are reported with this. -/
def takeNotices (m : Machine) : List MissingLibrary × Machine :=
  (m.notices, { m with notices := [] })

end Machine

end Treewalk
