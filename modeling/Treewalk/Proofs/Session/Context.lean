import Treewalk.Proofs.Machine.Notices
import Treewalk.Proofs.Session.Histories

/-!
The frame and the number of running calls are the same behind every task as before it, however it ends. In a session
the machine is therefore in the outermost frame between two runs, with no call running, and while a source runs the
number of running calls is the number of functions that were entered below the newest activity. What a run notes about
libraries is reported with it, each notice once.
-/

namespace Treewalk

/-- The machine is in the outermost frame, and no call is running. -/
structure Machine.AtRest (m : Machine) : Prop where
  frame : m.frame = globalFrame
  depth : m.depth = 0

theorem SameContext.atRest {m m' : Machine} (h : SameContext m m') (hm : m.AtRest) : m'.AtRest :=
  ⟨h.frame.trans hm.frame, h.depth.trans hm.depth⟩

theorem Machine.AtRest.interpret {m : Machine} (hm : m.AtRest) (steps : Nat) (program : List Stmt) :
    (m.interpret steps program).2.AtRest := by
  induction program generalizing m with
  | nil =>
    rw [Machine.interpret_nil]
    exact ⟨hm.frame, hm.depth⟩
  | cons s rest ih =>
    have hstatement := (perform_durable SameContext steps (.execute s) m).atRest hm
    rcases Machine.interpret_cons steps s rest m with ⟨m₁, hnext, heq⟩ | ⟨-, heq | heq⟩
    · rw [heq]
      rw [Machine.machine_of_next? hnext] at hstatement
      exact ih hstatement
    · rw [heq]
      exact hstatement
    · rw [heq]
      exact ⟨rfl, rfl⟩

/-- The activity would enter a function while as many were entered below it as may be. -/
def Activity.OneTooMany (a : Activity) (below : List Activity) (line : Nat) : Prop :=
  a.steps ≠ 0 ∧ (Activity.calls below).length = depthLimit ∧
    ∃ callee arguments e, a.task = .invoke callee arguments line ∧ a.entered? = some e

/-- A call of one function too many fails, and only with such a call a failure of this kind begins. -/
theorem Machine.Underway.tooDeep {m : Machine} {steps : Nat} {program : List Stmt} {a : Activity}
    {outer : List Activity} (hm : m.AtRest) (h : m.Underway steps program (a :: outer)) (line : Nat) :
    (a.OneTooMany outer line → ∃ w, a.outcome = .stopped (.failed ⟨line, .tooDeep⟩) w) ∧
      ∀ w, a.outcome = .stopped (.failed ⟨line, .tooDeep⟩) w →
        ∃ call below, m.Underway steps program (call :: below) ∧ a :: outer <:+ call :: below ∧
          call.OneTooMany below line := by
  have hdepth : ∀ {b below}, m.Underway steps program (b :: below) →
      b.machine.depth = (Activity.calls below).length ∧ b.machine.depth ≤ depthLimit := by
    intro b below hb
    have := hb.depth (by rw [hm.depth]; exact Nat.zero_le _)
    rwa [hm.depth, Nat.zero_add] at this
  constructor
  · rintro ⟨hsteps, hcalls, callee, arguments, e, htask, he⟩
    have hd : depthLimit ≤ a.machine.depth := Nat.le_of_eq (by rw [(hdepth h).1, hcalls])
    exact Activity.outcome_of_tooDeep hsteps htask he hd
  · intro w hw
    obtain ⟨call, below, callee, arguments, e, hunder, hsuffix, hsteps, htask, he, hd⟩ := h.tooDeep_origin hw
    obtain ⟨hcalls, hle⟩ := hdepth hunder
    refine ⟨call, below, hunder, hsuffix, hsteps, ?_, callee, arguments, e, htask, he⟩
    rw [← hcalls]
    exact Nat.le_antisymm hle hd

namespace Session

variable {s s' : Session} {past : List Visit} {steps : Nat} {source : List UInt8} {diagnostics : Diagnostics}

/-- While the source runs, the stack is under way, and its newest activity adds the notice behind as many others as
given. -/
def Raises (s : Session) (steps : Nat) (source : List UInt8) (x : MissingLibrary) (k : Nat) (stack : List Activity) :
    Prop :=
  ∃ program, (s.check source).1 = some program ∧ (s.check source).2.2.machine.Raises steps program x k stack

theorem Raises.unique {x y : MissingLibrary} {k : Nat} {stack other : List Activity} (h : s.Raises steps source x k stack)
    (h' : s.Raises steps source y k other) : other = stack := by
  obtain ⟨program, hprogram, hraises⟩ := h
  obtain ⟨program', hprogram', hraises'⟩ := h'
  cases hprogram.symm.trans hprogram'
  exact hraises.unique hraises'

theorem Reached.atRest (h : s.Reached past) : s.machine.AtRest ∧ s.machine.notices = [] := by
  induction h with
  | start sink input clock host => exact ⟨⟨rfl, rfl⟩, rfl⟩
  | parse source _ ih => exact ih
  | @run s _ steps _ _ _ _ hrun ih =>
    obtain ⟨distances, -, ⟨-, heq⟩ | ⟨program, m, -, hended, heq⟩⟩ := run_leaves hrun
    · rw [heq]
      exact ⟨⟨ih.1.frame, ih.1.depth⟩, ih.2⟩
    · have hrest := Machine.AtRest.interpret (m := { s.machine with distances }) ⟨ih.1.frame, ih.1.depth⟩ steps program
      rw [hended] at hrest
      rw [heq]
      exact ⟨⟨hrest.frame, hrest.depth⟩, rfl⟩
  | define name value _ ih => exact ⟨⟨ih.1.frame, ih.1.depth⟩, ih.2⟩
  | exchange sink input clock host _ ih => exact ⟨⟨ih.1.frame, ih.1.depth⟩, ih.2⟩

theorem check_warnings (s : Session) (source : List UInt8) :
    ∀ x ∈ (s.check source).2.1.warnings, ∃ name line, x = .unusedVariable name line := by
  intro x hx
  rcases Program.read_or_reports s.nextId source with ⟨statements, n, hread⟩ | hreports
  · rw [check_of_read hread] at hx
    obtain ⟨hx, hadvice⟩ := List.mem_filter.mp hx
    obtain ⟨finding, -, rfl⟩ := List.mem_map.mp hx
    cases finding with
    | fault token cause => cases hadvice
    | unused token => exact ⟨_, _, rfl⟩
  · rw [check_of_reports hreports] at hx
    obtain ⟨hx, hadvice⟩ := List.mem_filter.mp hx
    rw [Program.reports_not_advice _ _ x hx] at hadvice
    cases hadvice

/-- The warnings of a run are those of its check and its notices. -/
theorem warnings_of_proceed (d : Diagnostics) (notices : List MissingLibrary) (ending : Ending) :
    ((d.reportAll (notices.map (·.diagnostic))).reportAll ending.diagnostics).warnings =
      d.warnings ++ notices.map (·.diagnostic) := by
  have hnotices : (notices.map (·.diagnostic)).filter (·.isAdvice) = notices.map (·.diagnostic) := by
    refine List.filter_eq_self.mpr fun x hx => ?_
    obtain ⟨notice, -, rfl⟩ := List.mem_map.mp hx
    rfl
  have hending : ending.diagnostics.filter (·.isAdvice) = [] := by cases ending <;> rfl
  simp only [Diagnostics.reportAll, hnotices, hending, List.append_nil]

/-- The notices that a run reports are those that its activities add. -/
theorem run_notices (hs : s.machine.notices = []) (hrun : s.run steps source = some (diagnostics, s')) :
    ∃ reported : List MissingLibrary,
      diagnostics.warnings = (s.check source).2.1.warnings ++ reported.map (·.diagnostic) ∧
      ∀ k x, reported[k]? = some x ↔ ∃ stack, s.Raises steps source x k stack := by
  obtain ⟨distances, n, hleft, -, -⟩ := check_leaves s source
  rw [run_eq_proceed] at hrun
  rcases hcheck : s.check source with ⟨_ | program, reports, t⟩ <;> rw [hcheck] at hrun hleft
  · cases hrun
    refine ⟨[], (List.append_nil _).symm, fun k x => ⟨fun hx => (by cases hx), ?_⟩⟩
    rintro ⟨stack, program, hprogram, -⟩
    rw [hcheck] at hprogram
    cases hprogram
  · obtain ⟨ending, m, hended, -, heq⟩ := proceed_eq_some hrun
    cases heq
    have hraises : ∀ x k stack, s.Raises steps source x k stack ↔ t.machine.Raises steps program x k stack := by
      intro x k stack
      simp only [Raises, hcheck, Option.some.injEq, exists_eq_left']
    have hstart : t.machine.notices.length = 0 := by
      rw [show t = _ from hleft]
      exact congrArg List.length hs
    refine ⟨m.notices, warnings_of_proceed _ _ _, fun k x => ?_⟩
    have hiff : (t.machine.interpret steps program).2.notices[k]? = some x ↔ _ :=
      Machine.notices_getElem?_iff (hstart ▸ Nat.zero_le k)
    rw [hended] at hiff
    simpa only [hraises] using hiff

end Session

/-- Every statement, expression and call, on every machine and however it ends, leaves the machine in the frame in which
it found it, with as many running calls. In every session the machine is in the outermost frame between two runs, no
call is running, and nothing is left to report. While a source runs, as many calls are running as functions were entered
below the newest activity, at most 2048, and failures because of too many calls begin exactly where one more function
would be entered. Each notice of a run is one that a single activity of this run adds, and each is reported once. -/
theorem context_always_restored :
    (∀ steps task m, (perform steps task m).machine.frame = m.frame ∧ (perform steps task m).machine.depth = m.depth) ∧
    ∀ (s : Session) (past : List Visit), s.Reached past →
      (s.machine.frame = globalFrame ∧ s.machine.depth = 0 ∧ s.machine.notices = []) ∧
      (∀ source program steps a outer, (s.check source).1 = some program →
        (s.check source).2.2.machine.Underway steps program (a :: outer) →
        a.machine.depth = (Activity.calls outer).length ∧ a.machine.depth ≤ depthLimit ∧
        ∀ line,
          (a.OneTooMany outer line → ∃ w, a.outcome = .stopped (.failed ⟨line, .tooDeep⟩) w) ∧
          ∀ w, a.outcome = .stopped (.failed ⟨line, .tooDeep⟩) w →
            ∃ call below, (s.check source).2.2.machine.Underway steps program (call :: below) ∧
              a :: outer <:+ call :: below ∧ call.OneTooMany below line) ∧
      ∀ source steps diagnostics s', s.run steps source = some (diagnostics, s') →
        (∀ x ∈ (s.check source).2.1.warnings, ∃ name line, x = .unusedVariable name line) ∧
        ∃ reported : List MissingLibrary,
          diagnostics.warnings = (s.check source).2.1.warnings ++ reported.map (·.diagnostic) ∧
          (∀ k x, reported[k]? = some x ↔ ∃ stack, s.Raises steps source x k stack) ∧
          ∀ k x y stack other, s.Raises steps source x k stack → s.Raises steps source y k other → other = stack := by
  refine ⟨fun steps task m => ?_, fun s past hs => ?_⟩
  · have hcontext := perform_durable SameContext steps task m
    exact ⟨hcontext.frame, hcontext.depth⟩
  · obtain ⟨hrest, hnotices⟩ := hs.atRest
    refine ⟨⟨hrest.frame, hrest.depth, hnotices⟩, fun source program steps a outer _ ha => ?_,
      fun source steps diagnostics s' hrun => ⟨s.check_warnings source, ?_⟩⟩
    case refine_2 =>
      obtain ⟨reported, hwarnings, hraised⟩ := Session.run_notices hnotices hrun
      exact ⟨reported, hwarnings, hraised, fun _ _ _ _ _ h h' => h.unique h'⟩
    have hstart : (s.check source).2.2.machine.AtRest := by
      obtain ⟨distances, n, hleft, -, -⟩ := s.check_leaves source
      rw [hleft]
      exact ⟨hrest.frame, hrest.depth⟩
    have hdepth := ha.depth (by rw [hstart.depth]; exact Nat.zero_le _)
    rw [hstart.depth, Nat.zero_add] at hdepth
    exact ⟨hdepth.1, hdepth.2, ha.tooDeep hstart⟩

/-- A source that asks for a library which does not exist. -/
def Session.asking : List UInt8 := Text.encode "use std::io::none;"

/-- The notice of a library is in the report of the run, raised by one activity, and then gone. -/
theorem missing_library_reported_once :
    ∃ diagnostics s', Session.run 1 {} Session.asking = some (diagnostics, s') ∧
      diagnostics.warnings = [.missingLibrary "std::io::none" 1] ∧
      (s'.machine.frame = globalFrame ∧ s'.machine.depth = 0 ∧ s'.machine.notices = []) ∧
      ∃ stack, Session.Raises {} 1 Session.asking ⟨"std::io::none", 1⟩ 0 stack ∧
        ∀ y other, Session.Raises {} 1 Session.asking y 0 other → other = stack := by
  have hstart : Session.Reached {} [] := .start {} {} {} []
  have hcheck : (Session.check {} Session.asking).2.1.warnings = [] := by decide +kernel
  have hresult : (Session.run 1 {} Session.asking).map (·.1.warnings) = some [.missingLibrary "std::io::none" 1] := by
    decide +kernel
  obtain ⟨⟨diagnostics, s'⟩, hrun, hwarnings⟩ := Option.map_eq_some_iff.mp hresult
  obtain ⟨-, reported, hreported, hraised, hunique⟩ := (context_always_restored.2 {} [] hstart).2.2 _ _ _ _ hrun
  have hfirst : reported[0]? = some ⟨"std::io::none", 1⟩ := by
    rw [hcheck, hwarnings] at hreported
    obtain ⟨⟨path, line⟩, rfl, hnotice⟩ := List.map_eq_singleton_iff.mp hreported.symm
    cases hnotice
    rfl
  obtain ⟨stack, hstack⟩ := (hraised 0 _).mp hfirst
  exact ⟨diagnostics, s', hrun, hwarnings, (context_always_restored.2 s' _ (.run hstart hrun)).1, stack, hstack,
    fun y other => hunique 0 _ y stack other hstack⟩

end Treewalk
