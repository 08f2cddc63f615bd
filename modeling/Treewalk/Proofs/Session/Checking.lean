import Treewalk.Proofs.Grammar.Identities
import Treewalk.Proofs.Scope.Visits
import Treewalk.Session

/-!
The part of a run before anything happens: a source is read and checked. It either may run, and then its statements are
those of a derivation and no fault was found, or it is refused. In both cases the session changes only in the identity
for the next node and in the recorded distances.
-/

namespace Treewalk

open Grammar

theorem Diagnostics.hasErrors_reportAll (d : Diagnostics) (xs : List Diagnostic) :
    (d.reportAll xs).hasErrors = (d.hasErrors || xs.any (!·.isAdvice)) := by
  cases d with
  | mk errors warnings =>
    cases errors with
    | nil =>
      simp only [reportAll, hasErrors, List.nil_append, List.isEmpty_nil, Bool.not_true, Bool.false_or]
      rw [Bool.eq_iff_iff]
      simp [List.filter_eq_nil_iff]
    | cons e rest => rfl

variable {source : List UInt8}

theorem Program.ofSource_eq_iff {n j : NodeId} {xs : List Stmt} : Program.ofSource n source = ⟨xs, [], j⟩ ↔
      LexError.all (Token.scan source) = [] ∧ parse n (Token.good (Token.scan source)) = ⟨xs, [], j⟩ := by
  unfold Program.ofSource Program.ofTokens
  dsimp only
  rcases parse n (Token.good (Token.scan source)) with ⟨statements, errors, k⟩
  simp only [Program.mk.injEq, Reading.mk.injEq, List.append_eq_nil_iff, List.map_eq_nil_iff]
  constructor
  · rintro ⟨hxs, ⟨hall, herrors⟩, hk⟩
    exact ⟨hall, hxs, herrors, hk⟩
  · rintro ⟨hall, hxs, herrors, hk⟩
    exact ⟨hxs, ⟨hall, herrors⟩, hk⟩

/-- A source is read, or something is reported about it. -/
theorem Program.read_or_reports (nextId : NodeId) (source : List UInt8) :
    (∃ xs n, Program.ofSource nextId source = ⟨xs, [], n⟩) ∨ (Program.ofSource nextId source).reports ≠ [] := by
  rcases Program.ofSource nextId source with ⟨xs, _ | ⟨x, rest⟩, n⟩
  · exact Or.inl ⟨xs, n, rfl⟩
  · exact Or.inr (List.cons_ne_nil x rest)

/-- What is reported about a reading are errors. -/
theorem Program.reports_not_advice (nextId : NodeId) (source : List UInt8) :
    ∀ x ∈ (Program.ofSource nextId source).reports, x.isAdvice = false := by
  intro x hx
  rcases List.mem_append.mp hx with hx | hx <;>
    (obtain ⟨e, -, rfl⟩ := List.mem_map.mp hx; rfl)

theorem Program.hasErrors_reports {nextId : NodeId} (h : (Program.ofSource nextId source).reports ≠ []) :
    (Diagnostics.reportAll {} (Program.ofSource nextId source).reports).hasErrors = true := by
  obtain ⟨x, hx⟩ := List.exists_mem_of_ne_nil _ h
  rw [Diagnostics.hasErrors_reportAll, Bool.or_eq_true, List.any_eq_true]
  exact Or.inr ⟨x, hx, by rw [Program.reports_not_advice _ _ x hx]; rfl⟩

/-- A source of which nothing is reported is one of the grammar. -/
theorem Program.derives {n j : NodeId} {xs : List Stmt} (h : Program.ofSource n source = ⟨xs, [], j⟩) :
    Derives .declarations (Point.start n (Token.good (Token.scan source))) xs ⟨[], j⟩ :=
  derives_of_parse_eq (Program.ofSource_eq_iff.mp h).2

/-- A check without a fault is one of which no error is reported. -/
theorem Resolver.clean_iff (r : Resolver) :
    r.Clean ↔ (r.findings.map (·.diagnostic)).any (!·.isAdvice) = false := by
  rw [List.any_map, List.any_eq_false]
  constructor
  · intro h x hx
    cases x with
    | fault token cause => exact absurd hx (h token cause)
    | unused token => simp [Finding.diagnostic, Diagnostic.isAdvice]
  · intro h token cause hx
    simpa [Finding.diagnostic, Diagnostic.isAdvice] using h _ hx

namespace Session

/-- Reads and checks a source: its statements if it may run, what is reported, and the session that is left. -/
def check (s : Session) (source : List UInt8) : Option (List Stmt) × Diagnostics × Session :=
  match s.parse source with
  | (none, diagnostics, s) => (none, diagnostics, s)
  | (some statements, diagnostics, s) =>
    let (reports, s) := s.resolve statements
    let diagnostics := diagnostics.reportAll reports
    (if diagnostics.hasErrors then none else some statements, diagnostics, s)

/-- Runs the statements of a source that was not refused. -/
def proceed (steps : Nat) : Option (List Stmt) × Diagnostics × Session → Option (Diagnostics × Session)
  | (none, diagnostics, s) => some (diagnostics, s)
  | (some statements, diagnostics, s) =>
    match Machine.interpret steps statements s.machine with
    | (.suspended, _) => none
    | (ending, machine) =>
      let (notices, machine) := machine.takeNotices
      let diagnostics := diagnostics.reportAll (notices.map (·.diagnostic))
      some (diagnostics.reportAll ending.diagnostics, { s with machine })

/-- A run is a check and, unless it refuses, the running of the statements. -/
theorem run_eq_proceed (steps : Nat) (s : Session) (source : List UInt8) :
    s.run steps source = proceed steps (s.check source) := by
  unfold run check
  rcases s.parse source with ⟨_ | statements, diagnostics, s'⟩
  · rfl
  · have hproceed : ∀ program, (if (diagnostics.reportAll (s'.resolve statements).1).hasErrors then none
        else some statements) = program → proceed steps (if (diagnostics.reportAll (s'.resolve statements).1).hasErrors
        then none else some statements, diagnostics.reportAll (s'.resolve statements).1, (s'.resolve statements).2) =
        proceed steps (program, diagnostics.reportAll (s'.resolve statements).1, (s'.resolve statements).2) :=
      fun program h => by rw [h]
    by_cases herrors : (diagnostics.reportAll (s'.resolve statements).1).hasErrors = true
    · exact (if_pos herrors).trans (hproceed none (if_pos herrors)).symm
    · exact (if_neg herrors).trans (hproceed (some statements) (if_neg herrors)).symm

variable {steps : Nat} {xs : List Stmt} {d : Diagnostics} {s : Session} {source : List UInt8} {n : NodeId}

theorem proceed_of_suspended {m : Machine} (h : Machine.interpret steps xs s.machine = (.suspended, m)) :
    proceed steps (some xs, d, s) = none := by
  simp only [proceed, h]

theorem proceed_of_ended {ending : Ending} {m : Machine} (h : Machine.interpret steps xs s.machine = (ending, m))
    (hended : ending ≠ .suspended) :
    proceed steps (some xs, d, s) = some ((d.reportAll (m.notices.map (·.diagnostic))).reportAll ending.diagnostics,
      { s with machine := { m with notices := [] } }) := by
  simp only [proceed, h]
  cases ending with
  | suspended => exact absurd rfl hended
  | _ => rfl

/-- Statements that end leave their machine, with all it had to report reported. -/
theorem proceed_eq_some {ended : Diagnostics × Session} (h : proceed steps (some xs, d, s) = some ended) :
    ∃ ending m, Machine.interpret steps xs s.machine = (ending, m) ∧ ending ≠ .suspended ∧
      ended = ((d.reportAll (m.notices.map (·.diagnostic))).reportAll ending.diagnostics,
        { s with machine := { m with notices := [] } }) := by
  rcases hended : Machine.interpret steps xs s.machine with ⟨ending, m⟩
  have hne : ending ≠ .suspended := fun hs => by
    subst hs
    rw [proceed_of_suspended hended] at h
    cases h
  rw [proceed_of_ended hended hne] at h
  exact ⟨ending, m, rfl, hne, (Option.some.inj h).symm⟩

theorem parse_of_read {statements : List Stmt} (h : Program.ofSource s.nextId source = ⟨statements, [], n⟩) :
    s.parse source = (some statements, {}, { s with nextId := n }) := by
  unfold parse
  rw [h]
  rfl

theorem parse_of_reports (h : (Program.ofSource s.nextId source).reports ≠ []) : (s.parse source).1 = none := by
  unfold parse
  dsimp only
  rw [if_pos (Program.hasErrors_reports h)]

/-- A source of which something is reported when it is read is refused. -/
theorem check_of_reports (h : (Program.ofSource s.nextId source).reports ≠ []) :
    s.check source = (none, Diagnostics.reportAll {} (Program.ofSource s.nextId source).reports,
      { s with nextId := (Program.ofSource s.nextId source).nextId }) := by
  unfold check parse
  dsimp only
  rw [if_pos (Program.hasErrors_reports h)]

/-- A source of which nothing is reported when it is read is checked. -/
theorem check_of_read {statements : List Stmt} (h : Program.ofSource s.nextId source = ⟨statements, [], n⟩) :
    s.check source =
      (if (Diagnostics.reportAll {} ((Stmt.check s.machine.distances statements).findings.map (·.diagnostic))).hasErrors
        then none else some statements,
       Diagnostics.reportAll {} ((Stmt.check s.machine.distances statements).findings.map (·.diagnostic)),
       ⟨{ s.machine with distances := (Stmt.check s.machine.distances statements).distances }, n⟩) := by
  unfold check
  rw [parse_of_read h]
  rfl

theorem hasErrors_findings_iff (r : Resolver) :
    (Diagnostics.reportAll {} (r.findings.map (·.diagnostic))).hasErrors = true ↔ ¬r.Clean := by
  rw [Diagnostics.hasErrors_reportAll, Resolver.clean_iff, Bool.not_eq_false]
  rfl

theorem check_of_clean (hread : Program.ofSource s.nextId source = ⟨xs, [], n⟩)
    (hclean : (Stmt.check s.machine.distances xs).Clean) : s.check source =
      (some xs, Diagnostics.reportAll {} ((Stmt.check s.machine.distances xs).findings.map (·.diagnostic)),
       ⟨{ s.machine with distances := (Stmt.check s.machine.distances xs).distances }, n⟩) := by
  rw [check_of_read hread, if_neg fun h => (hasErrors_findings_iff _).mp h hclean]

/-- A check either refuses the reading of a source, or its statements are those of a derivation, and they may run
exactly if no fault is found. -/
theorem check_cases (s : Session) (source : List UInt8) :
    (∃ n : Nat, s.nextId ≤ n ∧ (s.check source).1 = none ∧ (s.check source).2.2 = { s with nextId := n }) ∨
    ∃ (statements : List Stmt) (n : Nat) (checked : Resolver),
      Derives .declarations (Point.start s.nextId (Token.good (Token.scan source))) statements ⟨[], n⟩ ∧
      checked = Stmt.check s.machine.distances statements ∧
      (s.check source).2.2 = ⟨{ s.machine with distances := checked.distances }, n⟩ ∧
      ((s.check source).1 = none ∧ ¬checked.Clean ∨ (s.check source).1 = some statements ∧ checked.Clean) := by
  rcases Program.read_or_reports s.nextId source with ⟨statements, n, hread⟩ | hreports
  · refine Or.inr ⟨statements, n, _, Program.derives hread, rfl, ?_⟩
    by_cases hclean : (Stmt.check s.machine.distances statements).Clean
    · rw [check_of_clean hread hclean]
      exact ⟨rfl, Or.inr ⟨rfl, hclean⟩⟩
    · rw [check_of_read hread]
      exact ⟨rfl, Or.inl ⟨if_pos ((hasErrors_findings_iff _).mpr hclean), hclean⟩⟩
  · rw [check_of_reports hreports]
    exact Or.inl ⟨_, nextId_le_parse _ _, rfl, rfl⟩

end Session

end Treewalk
