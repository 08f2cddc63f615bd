import Treewalk.Proofs.Machine.Output
import Treewalk.Proofs.Session.Receivers
import Treewalk.Proofs.Session.Refusal

/-!
What the exit code of a run tells. A source that is rejected before it runs leaves the sink alone; a failure within any
activity ends the whole program, since nothing catches it. Each of these has a code of its own, whatever the sink takes
or refuses, but one case has the code of another: a program all of whose statements ran, but whose sink refuses the last
flush, ends with the code of a rejected source.
-/

namespace Treewalk

open Grammar

/-! ### Failures end programs -/

namespace Machine

variable {steps : Nat} {program : List Stmt} {m : Machine} {a : Activity} {outer : List Activity} {e : RuntimeError}

/-- A failure of any activity is that of the program. -/
theorem Underway.interpret_failed {w : Machine} (h : m.Underway steps program (a :: outer))
    (ha : a.outcome = .stopped (.failed e) w) : (m.interpret steps program).1 = .failed e := by
  generalize hstack : a :: outer = stack at h
  induction h generalizing a outer w with
  | here =>
    cases hstack
    have hrun : perform _ _ _ = .stopped (.failed e) w := ha
    simp only [interpret, hrun]
  | @later s rest m m₁ _ hnext _ ih =>
    rcases interpret_cons steps s rest m with ⟨m₂, hnext', heq⟩ | ⟨hnone, -⟩
    · cases hnext.symm.trans hnext'
      rw [heq]
      exact ih ha hstack
    · cases hnext.symm.trans hnone
  | within _ hasks ih =>
    cases hstack
    obtain ⟨w', hw'⟩ := hasks.relay ha Task.not_catches_failed
    exact ih hw' rfl

theorem exists_failed (h : (m.interpret steps program).1 = .failed e) :
    ∃ a outer w, m.Underway steps program (a :: outer) ∧ a.outcome = .stopped (.failed e) w := by
  induction program generalizing m with
  | nil =>
    unfold interpret at h
    rcases hflush : m.sink.flush with ⟨sink, _ | reason⟩ <;> rw [hflush] at h <;> cases h
  | cons s rest ih =>
    rcases interpret_cases steps s rest m with ⟨m₁, hnext, heq⟩ | ⟨e', w, hrun, heq⟩ | ⟨w, -, heq⟩ <;> rw [heq] at h
    · obtain ⟨a, outer, w, ha, hw⟩ := ih h
      exact ⟨a, outer, w, .later hnext ha, hw⟩
    · cases h
      exact ⟨_, [], w, .here, hrun⟩
    · cases h

end Machine

namespace Session

variable {s s' : Session} {steps : Nat} {source : List UInt8} {d : Diagnostics}

/-- Scanning the source, reading its tokens or checking its statements reports an error. -/
def Rejects (s : Session) (source : List UInt8) : Prop :=
  LexError.all (Token.scan source) ≠ [] ∨
    (Grammar.parse s.nextId (Token.good (Token.scan source))).errors ≠ [] ∨
    ∃ token cause, Finding.fault token cause ∈
      (Stmt.check s.machine.distances (Grammar.parse s.nextId (Token.good (Token.scan source))).statements).findings

/-- While the source runs, some activity fails. -/
def Fails (s : Session) (steps : Nat) (source : List UInt8) : Prop :=
  ∃ a e w, s.Runs steps source a ∧ a.outcome = .stopped (.failed e) w

/-- The statements of the source run to their end, and the sink refuses to be flushed behind them. -/
def Unflushed (s : Session) (steps : Nat) (source : List UInt8) : Prop :=
  ∃ program reason m, (s.check source).1 = some program ∧
    (s.check source).2.2.machine.interpret steps program = (.unflushed reason, m)

theorem rejects_iff (s : Session) (source : List UInt8) : s.Rejects source ↔ (s.check source).1 = none := by
  rcases Program.read_or_reports s.nextId source with ⟨xs, n, hread⟩ | hreports
  · obtain ⟨hlex, hparse⟩ := Program.ofSource_eq_iff.mp hread
    have hfaults : s.Rejects source ↔ ¬(Stmt.check s.machine.distances xs).Clean := by
      simp only [Rejects, hlex, hparse, Resolver.Clean, not_forall, not_not, ne_eq, not_true_eq_false, false_or]
    rw [hfaults, check_of_read hread, ← hasErrors_findings_iff]
    split
    · next herrors => simp [herrors]
    · next herrors => simp [herrors]
  · rw [check_of_reports hreports]
    refine iff_of_true ?_ rfl
    by_contra hrejects
    simp only [Rejects, not_or, not_not] at hrejects
    refine hreports ?_
    simp only [Program.ofSource, Program.ofTokens, hrejects.1, hrejects.2.1, List.map_nil, List.append_nil]

theorem fails_iff {program : List Stmt} (hprogram : (s.check source).1 = some program) :
    s.Fails steps source ↔ ∃ e, ((s.check source).2.2.machine.interpret steps program).1 = .failed e := by
  constructor
  · rintro ⟨a, e, w, ⟨program', below, hprogram', hunder⟩, ha⟩
    cases hprogram.symm.trans hprogram'
    exact ⟨e, hunder.interpret_failed ha⟩
  · rintro ⟨e, he⟩
    obtain ⟨a, outer, w, hunder, ha⟩ := Machine.exists_failed he
    exact ⟨a, e, w, ⟨program, outer, hprogram, hunder⟩, ha⟩

theorem not_runs_of_rejects (h : s.Rejects source) (a : Activity) : ¬s.Runs steps source a := by
  rintro ⟨program, below, hprogram, -⟩
  cases ((s.rejects_iff source).mp h).symm.trans hprogram

/-- All errors of a source that is refused are about its text. -/
theorem exitCode_of_refused (h : (s.check source).1 = none) : (s.check source).2.1.exitCode = 65 := by
  have herrors : ∀ xs : List Diagnostic, (Diagnostics.reportAll {} xs).hasErrors = true → (∀ x ∈ xs, x.isRuntime = false) →
      (Diagnostics.reportAll {} xs).exitCode = 65 := by
    intro xs hxs hstatic
    rw [Diagnostics.hasErrors_reportAll, Bool.or_eq_true, List.any_eq_true] at hxs
    obtain ⟨x, hx, hadvice⟩ := hxs.resolve_left Bool.false_ne_true
    have hstatic : (Diagnostics.reportAll {} xs).hadStaticError = true :=
      List.any_eq_true.mpr ⟨x, List.mem_filter.mpr ⟨hx, hadvice⟩, by rw [hstatic x hx]; rfl⟩
    rw [Diagnostics.exitCode, if_pos hstatic]
  rcases Program.read_or_reports s.nextId source with ⟨xs, n, hread⟩ | hreports
  · rw [check_of_read hread] at h ⊢
    split at h
    · next hfound =>
      refine herrors _ hfound fun x hx => ?_
      obtain ⟨finding, -, rfl⟩ := List.mem_map.mp hx
      cases finding <;> rfl
    · cases h
  · rw [check_of_reports hreports]
    refine herrors _ (Program.hasErrors_reports hreports) fun x hx => ?_
    rcases List.mem_append.mp hx with hx | hx <;>
      (obtain ⟨e, -, rfl⟩ := List.mem_map.mp hx; rfl)

/-- The exit code of a source that ran depends on the way in which its program ended. -/
theorem exitCode_of_ended {program : List Stmt} (ending : Ending) (notices : List MissingLibrary)
    (h : (s.check source).1 = some program) :
    (((s.check source).2.1.reportAll (notices.map (·.diagnostic))).reportAll ending.diagnostics).exitCode =
      match ending with
      | .failed _ => 70
      | .unflushed _ => 65
      | _ => 0 := by
  have hadvice : (notices.map (·.diagnostic)).filter (!·.isAdvice) = [] := by
    refine List.filter_eq_nil_iff.mpr fun x hx => ?_
    obtain ⟨notice, -, rfl⟩ := List.mem_map.mp hx
    exact Bool.false_ne_true
  have herrors : (((s.check source).2.1.reportAll (notices.map (·.diagnostic))).reportAll ending.diagnostics).errors =
      ending.diagnostics := by
    simp only [Diagnostics.reportAll, errors_of_accepted h, hadvice, List.append_nil, List.nil_append]
    cases ending <;> rfl
  simp only [Diagnostics.exitCode, Diagnostics.hadStaticError, Diagnostics.hadRuntimeError, herrors]
  cases ending <;> rfl

/-- A run ends in one of four ways, of which two have the same code. -/
inductive Verdict (s : Session) (steps : Nat) (source : List UInt8) (d : Diagnostics) (s' : Session) : Prop where
  | rejected : s.Rejects source → ¬s.Fails steps source → ¬s.Unflushed steps source → d.exitCode = 65 →
      s'.machine.sink = s.machine.sink → Verdict s steps source d s'
  | failed : ¬s.Rejects source → s.Fails steps source → ¬s.Unflushed steps source → d.exitCode = 70 →
      Verdict s steps source d s'
  | unflushed : ¬s.Rejects source → ¬s.Fails steps source → s.Unflushed steps source → d.exitCode = 65 →
      (∃ sink reason, s.machine.sink.Grants sink ∧ sink.flush = (s'.machine.sink, some reason)) → Verdict s steps source d s'
  | finished : ¬s.Rejects source → ¬s.Fails steps source → ¬s.Unflushed steps source → d.exitCode = 0 →
      s.machine.sink.Grants s'.machine.sink → Verdict s steps source d s'

theorem run_verdict_of_rejects (h : s.Rejects source) (hrun : s.run steps source = some (d, s')) :
    s.Verdict steps source d s' := by
  have hnone := (s.rejects_iff source).mp h
  have hfinal : d = (s.check source).2.1 ∧ s' = (s.check source).2.2 := by
    rw [run_eq_proceed] at hrun
    rcases hc : s.check source with ⟨program, reports, t⟩
    rw [hc] at hrun hnone
    cases hnone
    cases hrun
    exact ⟨rfl, rfl⟩
  obtain ⟨rfl, rfl⟩ := hfinal
  obtain ⟨distances, n, hleft, -, -⟩ := check_leaves s source
  refine .rejected h ?_ ?_ (exitCode_of_refused hnone) (by rw [hleft])
  · rintro ⟨a, e, w, hruns, -⟩
    exact not_runs_of_rejects h a hruns
  · rintro ⟨program, reason, m, hsome, -⟩
    cases hnone.symm.trans hsome

theorem run_verdict (hrun : s.run steps source = some (d, s')) : s.Verdict steps source d s' := by
  by_cases haccepted : s.Rejects source
  · exact run_verdict_of_rejects haccepted hrun
  · obtain ⟨program, hprogram⟩ : ∃ program, (s.check source).1 = some program :=
      Option.ne_none_iff_exists'.mp fun hnone => haccepted ((s.rejects_iff source).mpr hnone)
    have hchecked : s.check source = (some program, (s.check source).2.1, (s.check source).2.2) := by rw [← hprogram]
    rw [run_eq_proceed, hchecked] at hrun
    obtain ⟨ending, m, hended, hne, heq⟩ := proceed_eq_some hrun
    cases heq
    have hcode := exitCode_of_ended ending m.notices hprogram
    have hfails : s.Fails steps source ↔ ∃ e, ending = .failed e := by rw [fails_iff hprogram, hended]
    have hflush : s.Unflushed steps source ↔ ∃ reason, ending = .unflushed reason := by
      constructor
      · rintro ⟨program', reason, m', hsome, hended'⟩
        cases hprogram.symm.trans hsome
        cases hended.symm.trans hended'
        exact ⟨reason, rfl⟩
      · rintro ⟨reason, rfl⟩
        exact ⟨program, reason, m, hprogram, hended⟩
    obtain ⟨hfinished, hunflushed⟩ := Machine.interpret_grants hended
    obtain ⟨distances, n, hleft, -, -⟩ := check_leaves s source
    rw [hleft] at hfinished hunflushed
    cases ending with
    | finished => exact .finished haccepted (by simp [hfails]) (by simp [hflush]) hcode (hfinished rfl)
    | failed e => exact .failed haccepted (by simp [hfails]) (by simp [hflush]) hcode
    | unflushed reason =>
      obtain ⟨sink, hsink, hrefused⟩ := hunflushed reason rfl
      exact .unflushed haccepted (by simp [hfails]) (by simp [hflush]) hcode ⟨sink, reason, hsink, hrefused⟩
    | suspended => exact absurd rfl hne

end Session

/-- In every session and with every sink, a run has exit code 65 if scanning, reading or checking reports an error, in
which case nothing is asked of the sink and nothing runs, and 70 exactly if anything fails while the source runs, as it
does if the sink refuses a line. But code 65 has also a source whose statements all run and whose sink refuses the last
flush, so that the code keeps failures of a running program apart from errors of its text exactly if that does not happen.
In all other cases the code is 0, and the sink granted all that it was asked for. -/
theorem exit_code_tells_phase {s s' : Session} {steps : Nat} {source : List UInt8} {d : Diagnostics}
    (hrun : s.run steps source = some (d, s')) :
    (d.exitCode = 65 ↔ s.Rejects source ∨ s.Unflushed steps source) ∧
    (d.exitCode = 70 ↔ s.Fails steps source) ∧
    (d.exitCode = 0 ↔ ¬s.Rejects source ∧ ¬s.Fails steps source ∧ ¬s.Unflushed steps source) ∧
    (s.Rejects source → s'.machine.sink = s.machine.sink ∧ ∀ a, ¬s.Runs steps source a) ∧
    (d.exitCode = 0 → s.machine.sink.Grants s'.machine.sink) ∧
    (s.Unflushed steps source →
      ∃ sink reason, s.machine.sink.Grants sink ∧ sink.flush = (s'.machine.sink, some reason)) ∧
    (¬s.Unflushed steps source ↔
      (d.exitCode = 65 ↔ s.Rejects source) ∧ (s.Fails steps source ∨ s.Unflushed steps source → d.exitCode = 70)) := by
  cases Session.run_verdict hrun with
  | rejected hr hf hu hcode hsink => simp [hcode, hr, hf, hu, hsink, Session.not_runs_of_rejects hr]
  | failed hr hf hu hcode => simp [hcode, hr, hf, hu]
  | unflushed hr hf hu hcode hsink => simpa [hcode, hr, hf, hu] using hsink
  | finished hr hf hu hcode hsink => simp [hcode, hr, hf, hu, hsink]

/-! ### A sink that takes a line and refuses to be flushed -/

namespace Withheld

open Identity (mark)

def source : List UInt8 := Text.encode "print nil;"

/-- A session whose sink takes everything, but never lets itself be flushed. -/
def session : Session where
  machine := { Machine.initial with sink := { refusesFlush := fun _ _ => some "flush failed" } }

def statement : Stmt := .print (mark .kwPrint 0) [.literal .nil]

theorem scan_source : Token.scan source = [mark .kwPrint 0, mark .kwNil 6, mark .semicolon 9,
    ⟨.finish, "", 1, 10⟩].map .ok := by
  decide +kernel

theorem check_source : (session.check source).1 = some [statement] ∧ (session.check source).2.2 = session := by
  simp only [Session.check, Session.parse, Program.ofSource, scan_source]
  exact ⟨rfl, rfl⟩

theorem interpret_source : ∃ m, session.machine.interpret 2 [statement] = (.unflushed "flush failed", m) := ⟨_, rfl⟩

theorem run_source : ∃ s', session.run 2 source = some (⟨[.io "flush failed"], []⟩, s') ∧
    s'.machine.sink.text = "nil\n" := by
  simp only [Session.run, Session.parse, Program.ofSource, scan_source]
  exact ⟨_, rfl, by decide +kernel⟩

end Withheld

/-- Nothing is wrong with the text of the source, and its line is written, but the code is that of a rejected source. -/
theorem refused_flush_exits_as_rejected : ∃ s', Withheld.session.run 2 Withheld.source = some (⟨[.io "flush failed"], []⟩, s') ∧
    s'.machine.sink.text = "nil\n" ∧ (⟨[.io "flush failed"], []⟩ : Diagnostics).exitCode = 65 ∧
    ¬Withheld.session.Rejects Withheld.source ∧ Withheld.session.Unflushed 2 Withheld.source := by
  obtain ⟨s', hrun, htext⟩ := Withheld.run_source
  obtain ⟨hprogram, hsession⟩ := Withheld.check_source
  obtain ⟨m, hended⟩ := Withheld.interpret_source
  have hflush : Withheld.session.Unflushed 2 Withheld.source := ⟨_, _, m, hprogram, by rw [hsession, hended]⟩
  refine ⟨s', hrun, htext, (exit_code_tells_phase hrun).1.mpr (Or.inr hflush), ?_, hflush⟩
  rw [Session.rejects_iff, hprogram]
  exact nofun

end Treewalk
