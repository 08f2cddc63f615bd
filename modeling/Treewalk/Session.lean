import Treewalk.Machine.Interpretation
import Treewalk.Program

/-!
Sessions: one machine that runs sources one after another. What one run declares, the next one finds. A source with an
error before it runs is not run at all.
-/

namespace Treewalk

/-- A session: its machine, and the identity for the next node of a tree. -/
structure Session where
  machine : Machine := .initial
  nextId : NodeId := 0

namespace Session

/-- Reads a source. There are no statements to run if anything is wrong with it. -/
def parse (s : Session) (source : List UInt8) : Option (List Stmt) × Diagnostics × Session :=
  let program := Program.ofSource s.nextId source
  let diagnostics := Diagnostics.reportAll {} program.reports
  let session := { s with nextId := program.nextId }
  (if diagnostics.hasErrors then none else some program.statements, diagnostics, session)

/-- Checks statements, whose distances are recorded also if they are refused. -/
def resolve (s : Session) (program : List Stmt) : List Diagnostic × Session :=
  let checked := Stmt.check s.machine.distances program
  (checked.findings.map (·.diagnostic), { s with machine := { s.machine with distances := checked.distances } })

/-- Reads, checks and runs a source, with a grant of steps. Nothing is given back if these do not suffice. -/
def run (steps : Nat) (s : Session) (source : List UInt8) : Option (Diagnostics × Session) :=
  match s.parse source with
  | (none, diagnostics, s) => some (diagnostics, s)
  | (some statements, diagnostics, s) =>
    let (reports, s) := s.resolve statements
    let diagnostics := diagnostics.reportAll reports
    if diagnostics.hasErrors then some (diagnostics, s)
    else
      match Machine.interpret steps statements s.machine with
      | (.suspended, _) => none
      | (ending, machine) =>
        let (notices, machine) := machine.takeNotices
        let diagnostics := diagnostics.reportAll (notices.map (·.diagnostic))
        some (diagnostics.reportAll ending.diagnostics, { s with machine })

/-- Writes text to the sink of the machine, outside of any program. The sink may refuse it. -/
def emit (s : Session) (text : String) : Session × Option String :=
  let (sink, refusal) := s.machine.sink.write text
  ({ s with machine := { s.machine with sink } }, refusal)

/-- Asks the sink of the machine to pass on what it holds. -/
def flush (s : Session) : Session × Option String :=
  let (sink, refusal) := s.machine.sink.flush
  ({ s with machine := { s.machine with sink } }, refusal)

end Session

end Treewalk
