import Treewalk.Proofs.Grammar.Juxtaposition
import Treewalk.Proofs.Machine.Sequence
import Treewalk.Proofs.Machine.Steps
import Treewalk.Proofs.Scope.Sequence
import Treewalk.Proofs.Session.Refusal

/-!
Two sources, run one after the other in a session, do what they do as one source with a line break between them. The
tokens of the second source stand at later lines and offsets then, and this is the only difference: both are read as the
same statements, in which the same is found, and running them comes to the same.
-/

namespace Treewalk

open Grammar

/-! ### Reports without their lines -/

/-- The diagnostic without its line. -/
def Diagnostic.unplaced : Diagnostic → Diagnostic
  | lex _ message => lex 0 message
  | parse place message => parse { place with line := 0 } message
  | resolve place message => resolve { place with line := 0 } message
  | unusedVariable name _ => unusedVariable name 0
  | missingLibrary path _ => missingLibrary path 0
  | runtime _ message => runtime 0 message
  | io message => io message

@[simp] theorem Diagnostic.isAdvice_unplaced (x : Diagnostic) : x.unplaced.isAdvice = x.isAdvice := by cases x <;> rfl

@[simp] theorem Diagnostic.isRuntime_unplaced (x : Diagnostic) : x.unplaced.isRuntime = x.isRuntime := by
  cases x <;> rfl

theorem Finding.unplaced_relabel (f : Relabeling) (x : Finding) :
    (x.relabel f).diagnostic.unplaced = x.diagnostic.unplaced := by
  cases x <;> rfl

theorem Ending.unplaced_eq (ending : Ending) :
    ending.diagnostics.map (·.unplaced) = (ending.relabel .erase).diagnostics := by
  cases ending <;> rfl

namespace Diagnostics

/-- The diagnostics without their lines. -/
def unplaced (d : Diagnostics) : Diagnostics := ⟨d.errors.map (·.unplaced), d.warnings.map (·.unplaced)⟩

/-- What is reported of a run: the findings of the check, the notices of the machine, and the ending. -/
def ofRun (findings notices ending : List Diagnostic) : Diagnostics :=
  ((reportAll {} findings).reportAll notices).reportAll ending

theorem unplaced_reportAll (d : Diagnostics) (xs : List Diagnostic) :
    (d.reportAll xs).unplaced = d.unplaced.reportAll (xs.map (·.unplaced)) := by
  simp [unplaced, reportAll, List.filter_map, Function.comp_def]

theorem unplaced_ofRun (findings notices ending : List Diagnostic) : (ofRun findings notices ending).unplaced
    = ofRun (findings.map (·.unplaced)) (notices.map (·.unplaced)) (ending.map (·.unplaced)) := by
  rw [ofRun, unplaced_reportAll, unplaced_reportAll, unplaced_reportAll]
  rfl

theorem exitCode_unplaced (d : Diagnostics) : d.unplaced.exitCode = d.exitCode := by
  simp [exitCode, hadStaticError, hadRuntimeError, unplaced, Function.comp_def]

/-- The exit code does not depend on lines. -/
theorem exitCode_eq_of_errors {d d' : Diagnostics} (h : d.unplaced.errors = d'.unplaced.errors) :
    d.exitCode = d'.exitCode := by
  rw [← exitCode_unplaced d, ← exitCode_unplaced d']
  unfold exitCode hadStaticError hadRuntimeError
  rw [h]

section Regrouping
variable {findings findings' notices notices' ending : List Diagnostic}

/-- The errors of a run are those of its second part if its first part had none. -/
theorem errors_ofRun_append (h : (ofRun findings notices []).errors = []) :
    (ofRun (findings ++ findings') (notices ++ notices') ending).errors
      = (ofRun findings' notices' ending).errors := by
  simp only [ofRun, reportAll, List.filter_nil, List.append_nil, List.nil_append] at h
  obtain ⟨hfindings, hnotices⟩ := List.append_eq_nil_iff.mp h
  simp only [ofRun, reportAll, List.filter_append, hfindings, hnotices, List.nil_append]

/-- The warnings of a run are those of its parts, with all the findings before all the notices. -/
theorem warnings_ofRun_append : (ofRun (findings ++ findings') (notices ++ notices') ending).warnings.Perm
    ((ofRun findings notices []).warnings ++ (ofRun findings' notices' ending).warnings) := by
  refine List.perm_iff_count.mpr fun x => ?_
  simp only [ofRun, reportAll, List.filter_append, List.filter_nil, List.count_append, List.count_nil]
  omega

end Regrouping

end Diagnostics

/-! ### Reading -/

theorem Lexer.terminated_of_all_eq_nil {items : List (Except LexError Token)} (h : LexError.all items = []) :
    Lexer.Terminated items := by
  intro e he
  have hmem : e ∈ LexError.all items := List.mem_filterMap.mpr ⟨_, he, rfl⟩
  rw [h] at hmem
  cases hmem

/-- Two sources that are read without an error are read so as one, with the second one at a later place. -/
theorem Program.ofSource_joined {n j k : NodeId} {first second : List UInt8} {xs ys : List Stmt}
    (hfirst : Program.ofSource n first = ⟨xs, [], j⟩) (hsecond : Program.ofSource j second = ⟨ys, [], k⟩) :
    Program.ofSource n (first ++ Lexer.newline :: second) =
      ⟨xs ++ Stmt.relabelAll (.shift 0 (first.count Lexer.newline + 1) (first.length + 1)) ys, [], k⟩ := by
  obtain ⟨hall, hxs⟩ := Program.ofSource_eq_iff.mp hfirst
  obtain ⟨hall', hys⟩ := Program.ofSource_eq_iff.mp hsecond
  have hscan := Token.scan_append_newline second (Lexer.terminated_of_all_eq_nil hall)
  have hshift := parse_shift j 0 (first.count Lexer.newline + 1) (first.length + 1) (Token.exists_finish second)
  rw [hys] at hshift
  refine Program.ofSource_eq_iff.mpr ⟨?_, ?_⟩
  · rw [hscan, LexError.all_append, LexError.all_map_relabelItem, hall', List.map_nil, List.append_nil]
    have hsublist : (LexError.all (Token.scan first).dropLast).Sublist (LexError.all (Token.scan first)) :=
      (List.dropLast_sublist _).filterMap _
    rw [hall] at hsublist
    exact List.sublist_nil.mp hsublist
  · rw [hscan, Token.good_append, Token.good_map_relabelItem, Token.good_dropLast_scan]
    exact parse_juxtaposed hxs hshift

/-! ### Runs without an error -/

theorem Ending.relabel_eq_suspended_iff (f : Relabeling) (ending : Ending) :
    ending.relabel f = .suspended ↔ ending = .suspended := by
  cases ending <;> simp [Ending.relabel]

namespace Session

variable {s s' : Session} {steps : Nat} {source : List UInt8} {d : Diagnostics} {xs : List Stmt} {m : Machine}

/-- A source without an error is read and checked without one. -/
theorem clean_of_errors_eq_nil (h : (s.check source).2.1.errors = []) : ∃ xs n,
    Program.ofSource s.nextId source = ⟨xs, [], n⟩ ∧ (Stmt.check s.machine.distances xs).Clean := by
  have hnone : ¬(s.check source).2.1.hasErrors = true := by
    rw [Diagnostics.hasErrors, h]
    exact Bool.false_ne_true
  rcases Program.read_or_reports s.nextId source with ⟨xs, n, hread⟩ | hreports
  · rw [check_of_read hread] at hnone
    exact ⟨xs, n, hread, not_not.mp fun hclean => hnone ((hasErrors_findings_iff _).mpr hclean)⟩
  · rw [check_of_reports hreports] at hnone
    exact absurd (Program.hasErrors_reports hreports) hnone

/-- A run that reports no error reads and checks its source without one, and finishes. -/
theorem run_finished (h : s.run steps source = some (d, s')) (herrors : d.errors = []) : ∃ xs n last,
    Program.ofSource s.nextId source = ⟨xs, [], n⟩ ∧ (Stmt.check s.machine.distances xs).Clean ∧
    Machine.interpret steps xs { s.machine with distances := (Stmt.check s.machine.distances xs).distances }
      = (.finished, last) ∧
    d = .ofRun ((Stmt.check s.machine.distances xs).findings.map (·.diagnostic)) (last.notices.map (·.diagnostic)) [] ∧
    s' = ⟨{ last with notices := [] }, n⟩ := by
  rw [run_eq_proceed] at h
  have hcheck : (s.check source).2.1.errors = [] := by
    obtain ⟨reports, rfl, -⟩ := proceed_reports h
    exact (List.append_eq_nil_iff.mp herrors).1
  obtain ⟨xs, n, hread, hclean⟩ := clean_of_errors_eq_nil hcheck
  rw [check_of_clean hread hclean] at h
  obtain ⟨ending, last, hended, hs, heq⟩ := proceed_eq_some h
  cases heq
  have hlast : ending.diagnostics.filter (!·.isAdvice) = [] := (List.append_eq_nil_iff.mp herrors).2
  cases ending with
  | finished => exact ⟨xs, n, last, hread, hclean, hended, rfl, rfl⟩
  | failed e => cases hlast
  | unflushed reason => cases hlast
  | suspended => exact absurd rfl hs

/-- Two sources that are checked without an error are checked so as one. -/
theorem check_joined {j k : NodeId} {first second : List UInt8} {ys : List Stmt}
    (hxs : Program.ofSource s.nextId first = ⟨xs, [], j⟩) (hys : Program.ofSource j second = ⟨ys, [], k⟩)
    (hclean : (Stmt.check s.machine.distances xs).Clean)
    (hclean' : (Stmt.check (Stmt.check s.machine.distances xs).distances ys).Clean) :
    ∃ (findings : List Diagnostic) (lines bytes : Nat),
      findings.map (·.unplaced) = ((Stmt.check s.machine.distances xs).findings.map (·.diagnostic)
        ++ (Stmt.check (Stmt.check s.machine.distances xs).distances ys).findings.map (·.diagnostic)).map (·.unplaced) ∧
      s.check (first ++ Lexer.newline :: second) =
        (some (xs ++ Stmt.relabelAll (.shift 0 lines bytes) ys), Diagnostics.reportAll {} findings,
          ⟨{ s.machine with
            distances := (Stmt.check (Stmt.check s.machine.distances xs).distances ys).distances }, k⟩) := by
  have hboth := Stmt.check_append s.machine.distances xs ys (first.count Lexer.newline + 1) (first.length + 1)
  have hcheck := check_of_clean (Program.ofSource_joined hxs hys) (Stmt.clean_append hclean hclean' _ _)
  rw [hboth.findings, ← hboth.distances] at hcheck
  refine ⟨_, _, _, ?_, hcheck⟩
  simp only [List.map_append, List.map_map]
  congr 1
  exact List.map_congr_left fun x _ => Finding.unplaced_relabel _ x

/-! ### Two runs and one -/

/-- What one run leaves is, up to lines and offsets, what two runs leave of which the first one reported the given: the
same text in the sink, the same errors and exit code, the warnings of both, and the same heap, with the same global
names in it. -/
structure Joined (first : Diagnostics) (second joined : Diagnostics × Session) : Prop where
  output : joined.2.machine.sink.text = second.2.machine.sink.text
  errors : joined.1.unplaced.errors = second.1.unplaced.errors
  exitCode : joined.1.exitCode = second.1.exitCode
  warnings : joined.1.unplaced.warnings.Perm (first.unplaced.warnings ++ second.1.unplaced.warnings)
  heap : joined.2.machine.heap.relabel .erase = second.2.machine.heap.relabel .erase
  globals : joined.2.machine.heap.frame? globalFrame = second.2.machine.heap.frame? globalFrame

theorem Joined.of_alike {findings findings' both : List Diagnostic} {earlier : List MissingLibrary}
    {ending ending' : Ending} {m m' : Machine} (n n' : NodeId)
    (hfirst : (Diagnostics.ofRun findings (earlier.map (·.diagnostic)) []).errors = [])
    (hboth : both.map (·.unplaced) = (findings ++ findings').map (·.unplaced))
    (hending : ending'.relabel .erase = ending.relabel .erase) (halike : Machine.Alike earlier m m') :
    Joined (.ofRun findings (earlier.map (·.diagnostic)) [])
      (.ofRun findings' (m.notices.map (·.diagnostic)) ending.diagnostics, ⟨{ m with notices := [] }, n⟩)
      (.ofRun both (m'.notices.map (·.diagnostic)) ending'.diagnostics, ⟨{ m' with notices := [] }, n'⟩) := by
  have hnotices (notices : List MissingLibrary) : (notices.map (·.diagnostic)).map (·.unplaced)
      = (notices.map (·.relabel .erase)).map (·.diagnostic) := by
    rw [List.map_map, List.map_map]
    rfl
  have hjoined : (Diagnostics.ofRun both (m'.notices.map (·.diagnostic)) ending'.diagnostics).unplaced
      = .ofRun (findings.map (·.unplaced) ++ findings'.map (·.unplaced))
        ((earlier.map (·.diagnostic)).map (·.unplaced) ++ (m.notices.map (·.diagnostic)).map (·.unplaced))
        (ending.diagnostics.map (·.unplaced)) := by
    rw [Diagnostics.unplaced_ofRun, hboth, List.map_append, hnotices, halike.notices, List.map_append, List.map_append,
      hnotices, hnotices, Ending.unplaced_eq, Ending.unplaced_eq, hending]
  have hnone := congrArg (List.map (·.unplaced)) hfirst
  have herrors : (Diagnostics.ofRun both (m'.notices.map (·.diagnostic)) ending'.diagnostics).unplaced.errors
      = (Diagnostics.ofRun findings' (m.notices.map (·.diagnostic)) ending.diagnostics).unplaced.errors := by
    rw [hjoined, Diagnostics.unplaced_ofRun]
    refine Diagnostics.errors_ofRun_append ?_
    exact (congrArg (·.errors) (Diagnostics.unplaced_ofRun findings _ [])).symm.trans hnone
  refine ⟨halike.text, herrors, Diagnostics.exitCode_eq_of_errors herrors, ?_, halike.heap,
    congrArg (·.frame? globalFrame) halike.heap⟩
  rw [hjoined, Diagnostics.unplaced_ofRun, Diagnostics.unplaced_ofRun]
  exact Diagnostics.warnings_ofRun_append

/-- Programs that end alike, on machines that hold the same behind them, run behind their checks alike. -/
theorem Joined.proceed {findings findings' both : List Diagnostic} {earlier : List MissingLibrary} {ys zs : List Stmt}
    {t t' : Session} (hfirst : (Diagnostics.ofRun findings (earlier.map (·.diagnostic)) []).errors = [])
    (hboth : both.map (·.unplaced) = (findings ++ findings').map (·.unplaced))
    (hending : (t'.machine.interpret steps zs).1.relabel .erase = (t.machine.interpret steps ys).1.relabel .erase)
    (halike : Machine.Alike earlier (t.machine.interpret steps ys).2 (t'.machine.interpret steps zs).2) :
    Option.Rel (Joined (.ofRun findings (earlier.map (·.diagnostic)) []))
      (Session.proceed steps (some ys, Diagnostics.reportAll {} findings', t))
      (Session.proceed steps (some zs, Diagnostics.reportAll {} both, t')) := by
  rcases hended : t.machine.interpret steps ys with ⟨ending, m⟩
  rcases hended' : t'.machine.interpret steps zs with ⟨ending', m'⟩
  rw [hended, hended'] at hending halike
  dsimp only at hending halike
  by_cases hs : ending = .suspended
  · subst hs
    have hs' : ending' = .suspended := (Ending.relabel_eq_suspended_iff _ _).mp hending
    subst hs'
    rw [proceed_of_suspended hended, proceed_of_suspended hended']
    exact .none
  · have hs' : ending' ≠ .suspended := fun h => by
      subst h
      exact hs ((Ending.relabel_eq_suspended_iff _ _).mp hending.symm)
    rw [proceed_of_ended hended hs, proceed_of_ended hended' hs']
    exact .some (.of_alike t.nextId t'.nextId hfirst hboth hending halike)

/-- Running a second source in the session that the first one left, and running both as one: with the same steps neither
ends, or both do, and what they leave is the same. -/
theorem Reached.run_joined {past : List Visit} (hs : s.Reached past) (hsink : s.machine.sink.Willing)
    {first second : List UInt8} (hrun : s.run steps first = some (d, s')) (hfirst : d.errors = [])
    (hsecond : (({} : Session).check second).2.1.errors = []) :
    Option.Rel (Joined d) (s'.run steps second) (s.run steps (first ++ Lexer.newline :: second)) := by
  have hsettled := (Reached.run hs hrun).settled
  obtain ⟨xs, j, last, hxs, hclean, hended, rfl, rfl⟩ := run_finished hrun hfirst
  have hdistances : last.distances = (Stmt.check s.machine.distances xs).distances := by
    have hrules := Machine.interpret_rules steps xs
      { s.machine with distances := (Stmt.check s.machine.distances xs).distances }
    rw [hended] at hrules
    exact hrules.1
  rw [← check_reports ⟨{ last with notices := [] }, j⟩] at hsecond
  obtain ⟨ys, k, hys, hclean'⟩ := clean_of_errors_eq_nil hsecond
  have hcheck := check_of_clean hys hclean'
  obtain ⟨count, -, htable⟩ := hsettled.distances_skip second
  rw [hcheck] at htable
  dsimp only at hys hclean' hcheck htable
  rw [hdistances] at hclean' hcheck htable
  obtain ⟨both, lines, bytes, hboth, hjoined⟩ := check_joined hxs hys hclean hclean'
  -- The identities of the second source do not occur in the first one, nor in the heap behind it.
  have hspans : Spans s.nextId j (Stmt.allReferences xs) :=
    (Program.derives hxs).spans
  have htrees : Stmt.relabelAll (.skip j count) xs = xs := by
    rw [Stmt.relabelAll_congr (f := .skip j count) (g := .same) (fun _ => rfl) (fun _ => rfl) fun x hx =>
      Relabeling.skip_of_lt (hspans.within _ (List.mem_map_of_mem hx)).2, Stmt.relabelAll_same]
  have hheap : s.machine.heap.relabel (.skip j count) = s.machine.heap := hs.settled.heap_skip hspans.le
  have hlast : last.heap.relabel (.skip j count) = last.heap := hsettled.heap_skip (Nat.le_refl j)
  obtain ⟨hending, halike⟩ := Machine.interpret_sequence
    (m := { s.machine with distances := (Stmt.check s.machine.distances xs).distances }) (fun _ => rfl) htable htrees
    hheap hended hlast hsink ys lines bytes
  rw [run_eq_proceed, run_eq_proceed, hdistances, hcheck, hjoined]
  exact Joined.proceed hfirst hboth hending halike

/-- With enough steps the run ends as said. -/
def Ends (s : Session) (source : List UInt8) (ended : Diagnostics × Session) : Prop :=
  ∃ steps, s.run steps source = some ended

theorem run_of_le {steps' : Nat} (h : steps ≤ steps') {ended : Diagnostics × Session}
    (hrun : s.run steps source = some ended) : s.run steps' source = some ended := by
  rw [run_eq_proceed] at hrun ⊢
  rcases hc : s.check source with ⟨_ | xs, d, t⟩ <;> rw [hc] at hrun
  · exact hrun
  · obtain ⟨ending, m, hended, hs, rfl⟩ := proceed_eq_some hrun
    have hsame := Machine.interpret_of_le h xs t.machine (by rwa [hended])
    exact proceed_of_ended (hsame.trans hended) hs

end Session

/-- In every session whose sink takes everything, and for every source that ends in it without an error and every source
that has no error in its text: running the second one in the session that the first one leaves ends exactly if running
both as one source ends, with a line break between them, and up to lines and offsets they leave the same. -/
theorem runs_in_turn_are_one_run {s : Session} {past : List Visit} (hs : s.Reached past)
    (hsink : s.machine.sink.Willing) {first second : List UInt8} {d : Diagnostics} {s' : Session}
    (hrun : s.Ends first (d, s')) (hfirst : d.errors = [])
    (hsecond : (({} : Session).check second).2.1.errors = []) :
    (∀ x, s'.Ends second x → ∃ y, s.Ends (first ++ Lexer.newline :: second) y ∧ Session.Joined d x y) ∧
    ∀ y, s.Ends (first ++ Lexer.newline :: second) y → ∃ x, s'.Ends second x ∧ Session.Joined d x y := by
  obtain ⟨steps, hsteps⟩ := hrun
  have hjoined (more : Nat) := hs.run_joined hsink (Session.run_of_le (Nat.le_max_left steps more) hsteps) hfirst hsecond
  constructor
  · rintro x ⟨more, hx⟩
    have hrel := hjoined more
    rw [Session.run_of_le (Nat.le_max_right steps more) hx] at hrel
    cases hy : s.run (max steps more) (first ++ Lexer.newline :: second) with
    | none =>
      rw [hy] at hrel
      cases hrel
    | some y =>
      rw [hy] at hrel
      cases hrel with
      | some h => exact ⟨y, ⟨_, hy⟩, h⟩
  · rintro y ⟨more, hy⟩
    have hrel := hjoined more
    rw [Session.run_of_le (Nat.le_max_right steps more) hy] at hrel
    cases hx : s'.run (max steps more) second with
    | none =>
      rw [hx] at hrel
      cases hrel
    | some x =>
      rw [hx] at hrel
      cases hrel with
      | some h => exact ⟨x, ⟨_, hx⟩, h⟩

/-! ### A call behind a declaration -/

namespace Continuation

/-- A block that declares a name in vain and calls the function from before, and a statement that fails. -/
def source : List UInt8 := Text.encode "\x7b var b; print f(nil); \x7d g;"

/-- What is reported of the source on its own. -/
def reports : Diagnostics := ⟨[.runtime 1 "Undefined variable 'g'."], [.unusedVariable "b" 1]⟩

theorem check_source : (({} : Session).check source).2.1.errors = [] := by decide +kernel

theorem run_source : ∃ t : Session,
    Identity.session.run 7 source = some (reports, t) ∧ t.machine.sink.text = "nil\n" := by
  have htranscript : Identity.session.transcript [(7, source)] = some [(reports, "nil\n")] := by decide +kernel
  unfold Session.transcript at htranscript
  rcases hrun : Identity.session.run 7 source with _ | ⟨d, t⟩ <;> rw [hrun] at htranscript
  · cases htranscript
  · obtain ⟨hd, htext⟩ : d = reports ∧ t.machine.sink.text = "nil\n" := by
      simpa [Session.transcript] using htranscript
    exact ⟨t, by rw [hd], htext⟩

end Continuation

/-- A failure that comes behind a declaration, in a session of two runs and in one run. -/
theorem failure_behind_declaration :
    ({} : Session).Reached [] ∧ ({} : Session).machine.sink.Willing ∧
      ({} : Session).Ends Identity.declaration ({}, Identity.session) ∧
      (({} : Session).check Continuation.source).2.1.errors = [] ∧
      ∃ y, ({} : Session).Ends (Identity.declaration ++ Lexer.newline :: Continuation.source) y ∧
        y.1.unplaced.errors = [.runtime 0 "Undefined variable 'g'."] ∧ y.1.exitCode = 70 ∧
        y.2.machine.sink.text = "nil\n" := by
  have hs : ({} : Session).Reached [] := .start {} {} {} []
  have hsink : ({} : Session).machine.sink.Willing := fun _ _ => ⟨rfl, rfl⟩
  have hrun : ({} : Session).Ends Identity.declaration ({}, Identity.session) := ⟨_, Identity.run_declaration⟩
  obtain ⟨t, ht, htext⟩ := Continuation.run_source
  obtain ⟨y, hy, hjoined⟩ := (runs_in_turn_are_one_run hs hsink hrun rfl Continuation.check_source).1 _ ⟨_, ht⟩
  exact ⟨hs, hsink, hrun, Continuation.check_source, y, hy, hjoined.errors, hjoined.exitCode, hjoined.output.trans htext⟩

end Treewalk
