import Treewalk.Command
import Treewalk.Proofs.Machine.Output
import Treewalk.Proofs.Machine.Readings
import Treewalk.Proofs.Session.Histories

/-!
The conversation at the prompt. A line is taken either at the prompt, or by a call that reads a word while the source of
an earlier line runs, and each of these takes from the front of what is left of the input. So lines are taken once and in
their order. The conversation ends, without an error of its own, where none is left, and it is broken off only where the
sink refuses what the prompt writes.
-/

namespace Treewalk

namespace Session

variable {s s' : Session} {steps : Nat} {source : List UInt8} {diagnostics : Diagnostics}

/-- The calls that take lines while the source runs, in their order. -/
def Readings (s : Session) (steps : Nat) (source : List UInt8) (calls : List (Activity × List Activity)) : Prop :=
  match (s.check source).1 with
  | some program => (s.check source).2.2.machine.Readings steps program calls
  | none => calls = []

theorem exists_readings (s : Session) (steps : Nat) (source : List UInt8) : ∃ calls, s.Readings steps source calls := by
  unfold Readings
  split
  · exact Machine.exists_readings _ _ _
  · exact ⟨[], rfl⟩

/-- The calls take the front of the input, and the run leaves the rest. -/
theorem Readings.append {calls : List (Activity × List Activity)} (h : s.Readings steps source calls)
    (hrun : s.run steps source = some (diagnostics, s')) :
    calls.flatMap (·.1.lines) ++ s'.machine.input.lines = s.machine.input.lines := by
  obtain ⟨distances, hcheck, hleft⟩ := run_leaves hrun
  rcases hleft with ⟨hnone, hmachine⟩ | ⟨program, m, hsome, rfl, hmachine⟩
  · rw [Readings, hnone] at h
    rw [h, hmachine]
    rfl
  · rw [Readings, hsome, hcheck] at h
    rw [hmachine]
    exact h.inTurn.append

theorem consumes_run (hrun : s.run steps source = some (diagnostics, s')) : Consumes s.machine s'.machine := by
  obtain ⟨calls, h⟩ := exists_readings s steps source
  exact ⟨_, h.append hrun⟩

theorem run_willing (hrun : s.run steps source = some (diagnostics, s')) (h : s.machine.sink.Willing) :
    s'.machine.sink.Willing := by
  obtain ⟨distances, -, ⟨-, heq⟩ | ⟨program, m, -, hended, heq⟩⟩ := run_leaves hrun
  · rw [heq]
    exact h
  · have hstays := Machine.interpret_stepwise StaysWilling steps program { s.machine with distances } h
    rw [hended] at hstays
    rw [heq]
    exact hstays

theorem emit_willing (h : s.machine.sink.Willing) (text : String) :
    ∃ s', s.emit text = (s', none) ∧ s'.machine.sink.Willing := by
  obtain ⟨sink, hwrite, hsink⟩ := h.write_eq text
  refine ⟨{ s with machine := { s.machine with sink } }, ?_, hsink⟩
  rw [emit, hwrite]

theorem flush_willing (h : s.machine.sink.Willing) : ∃ s', s.flush = (s', none) ∧ s'.machine.sink.Willing := by
  obtain ⟨sink, hflush, hsink⟩ := h.flush_eq
  refine ⟨{ s with machine := { s.machine with sink } }, ?_, hsink⟩
  rw [flush, hflush]

end Session

namespace Prompt

/-- A turn of the conversation: the session that has taken a line, the line, the source to run unless it is blank, the
calls that take further lines while the source runs, and what is reported. -/
structure Turn where
  session : Session
  line : List UInt8
  source? : Option (List UInt8) := none
  calls : List (Activity × List Activity) := []
  diagnostics : Diagnostics := {}

/-- The lines that a turn takes, at the prompt and while its source runs. -/
def Turn.lines (turn : Turn) : List (List UInt8) := turn.line :: turn.calls.flatMap (·.1.lines)

/-- Whenever a word is read while the source of a turn runs, it is the first one of the first line that is not blank, and
the lines up to that one are taken; where all lines that are left are blank, there is none. -/
def Turn.ReadsWords (steps : Nat) (turn : Turn) : Prop :=
  ∀ source ∈ turn.source?, ∀ program, (turn.session.check source).1 = some program →
    ∀ k f arguments line m outer, (turn.session.check source).2.2.machine.Underway steps program
        (⟨k + 1, .invoke (.native f) arguments line, m⟩ :: outer) →
      f.primitive = .readWord → f.arity.accepts arguments.length →
      ∃ word? rest, Input.Yields m.input.lines word? rest ∧
        (word? = none ↔ ∀ l ∈ m.input.lines, Input.BlankLine l) ∧
        perform (k + 1) (.invoke (.native f) arguments line) m =
          .done (word?.elim .nil .string) { m with input := ⟨rest⟩ }

/-- The session that has asked for a line, with what is left of its input behind that line. -/
def heard (s : Session) (rest : List (List UInt8)) : Session :=
  { (ask s).1 with machine := { (ask s).1.machine with input := ⟨rest⟩ } }

/-- The turns of a conversation from one session to another. A line that is blank is passed over; any other one is trimmed
and run, and the conversation goes on with the session that the run leaves, whatever it reports. -/
inductive Talks (steps : Nat) : Session → List Turn → Session → Prop where
  | here {s} : Talks steps s [] s
  | blank {s line rest text turns last} : (ask s).2 = none → s.machine.input.lines = line :: rest →
      Text.decode? line = some text → Text.Blank text → Talks steps (heard s rest) turns last →
      Talks steps s ({ session := heard s rest, line } :: turns) last
  | run {s line rest text calls diagnostics s' turns last} : (ask s).2 = none → s.machine.input.lines = line :: rest →
      Text.decode? line = some text → ¬Text.Blank text →
      (heard s rest).run steps (Text.encode (Text.trim text)) = some (diagnostics, s') →
      (heard s rest).Readings steps (Text.encode (Text.trim text)) calls → Talks steps s' turns last →
      Talks steps s (⟨heard s rest, line, some (Text.encode (Text.trim text)), calls, diagnostics⟩ :: turns) last

/-- How a conversation ends behind its last turn: the sink refuses what asks for a line, or there is none. Then the line of
the mark is ended, which may be refused too. -/
inductive Ends : Session → String → Transcript → Prop where
  | refused {s s' fault stderr} : ask s = (s', some fault) → Ends s stderr (brokenOff s' stderr fault)
  | closed {s s' stderr} : ask s = (s', none) → s.machine.input.lines = [] → Ends s stderr (close s' stderr)

/-- What the reports of turns come to behind the given text. -/
def reports (stderr : String) (turns : List Turn) : String :=
  turns.foldl (fun text turn => text ++ turn.diagnostics.lines) stderr

variable {steps rounds : Nat} {s s' last : Session} {turns : List Turn} {line : List UInt8} {rest : List (List UInt8)}
  {text stderr : String} {t : Transcript} {fault : Fault}

/-- A turn with a blank line reports nothing. -/
theorem reports_blank : reports stderr ({ session := s, line } :: turns) = reports stderr turns := by
  have hnothing : stderr ++ Diagnostics.lines {} = stderr := String.append_empty
  rw [reports, List.foldl_cons, hnothing, reports]

/-- The turns take the front of the lines in their order, and leave the rest. -/
theorem Talks.lines (h : Talks steps s turns last) :
    turns.flatMap Turn.lines ++ last.machine.input.lines = s.machine.input.lines := by
  induction h with
  | here => rfl
  | blank _ hlines _ _ _ ih =>
    rw [List.flatMap_cons, List.append_assoc, ih, hlines]
    rfl
  | run _ hlines _ _ hrun hreadings _ ih =>
    rw [List.flatMap_cons, List.append_assoc, ih, hlines, Turn.lines, List.cons_append, hreadings.append hrun]
    rfl

/-- A machine in the course of a turn has the end of the input. -/
theorem Talks.readsWords (h : Talks steps s turns last)
    (htext : ∀ l ∈ s.machine.input.lines, (Text.decode? l).isSome) : ∀ turn ∈ turns, turn.ReadsWords steps := by
  induction h with
  | here => simp
  | blank _ hlines _ _ _ ih =>
    rw [hlines, List.forall_mem_cons] at htext
    exact List.forall_mem_cons.mpr ⟨nofun, ih htext.2⟩
  | @run s line rest _ _ _ s' _ _ _ hlines _ _ hrun _ _ ih =>
    rw [hlines, List.forall_mem_cons] at htext
    have hnext : s'.machine.input.lines <:+ rest := Session.consumes_run hrun
    refine List.forall_mem_cons.mpr ⟨?_, ih fun l hl => htext.2 l (hnext.subset hl)⟩
    intro source hsource program hprogram k f arguments _ m outer hunder hf harity
    obtain ⟨distances, n, hcheck, -⟩ := Session.check_leaves (heard s rest) source
    have hm : m.input.lines <:+ rest := by
      have hbegins : Consumes ((heard s rest).check source).2.2.machine m := hunder.begins
      rw [hcheck] at hbegins
      exact hbegins
    obtain ⟨word?, left, hyields, hperform⟩ := perform_readWord hf harity fun l hl => htext.2 l (hm.subset hl)
    exact ⟨word?, left, hyields, hyields.eq_none_iff, hperform⟩

/-! ### Asking -/

theorem ask_eq (s : Session) : ∃ sink, (ask s).1 = { s with machine := { s.machine with sink } } := by
  unfold ask Session.emit
  rcases s.machine.sink.write mark with ⟨sink, _ | cause⟩
  · dsimp only [Session.flush]
    rcases sink.flush with ⟨sink', _ | cause⟩ <;> exact ⟨sink', rfl⟩
  · exact ⟨sink, rfl⟩

theorem ask_input (s : Session) : (ask s).1.machine.input = s.machine.input := by
  obtain ⟨sink, heq⟩ := ask_eq s
  rw [heq]

theorem ask_willing (h : s.machine.sink.Willing) : ∃ s', ask s = (s', none) ∧ s'.machine.sink.Willing := by
  obtain ⟨s₁, hemit, h₁⟩ := Session.emit_willing h mark
  obtain ⟨s₂, hflush, h₂⟩ := Session.flush_willing h₁
  refine ⟨s₂, ?_, h₂⟩
  simp only [ask, hemit, hflush]

theorem Talks.willing (h : Talks steps s turns last) (hs : s.machine.sink.Willing) : last.machine.sink.Willing := by
  have hheard : ∀ {s : Session} {rest}, s.machine.sink.Willing → (heard s rest).machine.sink.Willing := by
    intro s rest hs
    obtain ⟨s', hask, hs'⟩ := ask_willing hs
    rw [heard, hask]
    exact hs'
  induction h with
  | here => exact hs
  | blank _ _ _ _ _ ih => exact ih (hheard hs)
  | run _ _ _ _ hrun _ _ ih => exact ih (Session.run_willing hrun (hheard hs))

/-! ### The exit code -/

theorem Fault.exitCode_ne_zero (fault : Fault) : fault.exitCode ≠ 0 := by
  cases fault <;> simp [exitCode]

/-- A conversation has no error of its own exactly if no line is left, and the sink took all that the prompt wrote. -/
theorem Ends.exitCode_eq_zero_iff (h : Ends last stderr t) :
    t.exitCode = 0 ↔ last.machine.input.lines = [] ∧ (ask last).2 = none ∧ ((ask last).1.emit "\n").2 = none := by
  cases h with
  | @refused s' fault _ hask =>
    rw [hask]
    simpa [brokenOff] using fault.exitCode_ne_zero
  | @closed s' _ hask hlines =>
    rw [hask, close]
    rcases s'.emit "\n" with ⟨s'', _ | cause⟩
    · simp [hlines]
    · simpa [brokenOff] using Fault.exitCode_ne_zero (.unprinted cause)

theorem Ends.exitCode_of_willing (h : Ends last stderr t) (hlast : last.machine.sink.Willing) : t.exitCode = 0 := by
  obtain ⟨s', hask, hs'⟩ := ask_willing hlast
  obtain ⟨s'', hemit, -⟩ := Session.emit_willing hs' "\n"
  rw [h.exitCode_eq_zero_iff, hask]
  cases h with
  | refused hrefused => cases hask.symm.trans hrefused
  | closed _ hlines => exact ⟨hlines, rfl, congrArg Prod.snd hemit⟩

/-! ### Rounds -/

theorem converse_refused (hask : ask s = (s', some fault)) :
    converse steps (rounds + 1) s stderr = some (brokenOff s' stderr fault) := by
  simp only [converse, hask]

theorem converse_closed (hask : ask s = (s', none)) (hlines : s.machine.input.lines = []) :
    converse steps (rounds + 1) s stderr = some (close s' stderr) := by
  have hinput : s'.machine.input = s.machine.input := by rw [← ask_input s, hask]
  have htake : s'.machine.input.takeLine = (.none, s'.machine.input) := by
    rw [← hinput] at hlines
    simp only [Input.takeLine, hlines]
  simp only [converse, hask, htake]

theorem takeLine_heard (hlines : s.machine.input.lines = line :: rest) (hdecode : Text.decode? line = some text) :
    (ask s).1.machine.input.takeLine = (.text text, ⟨rest⟩) := by
  rw [ask_input]
  simp only [Input.takeLine, hlines, hdecode]

/-- A round that takes a line goes on behind it, with what the run of the line leaves unless it is blank. -/
theorem converse_heard (hask : (ask s).2 = none) (hlines : s.machine.input.lines = line :: rest)
    (hdecode : Text.decode? line = some text) : converse steps (rounds + 1) s stderr =
      if (Text.trim text).isEmpty then converse steps rounds (heard s rest) stderr
      else
        match (heard s rest).run steps (Text.encode (Text.trim text)) with
        | none => none
        | some (diagnostics, s') => converse steps rounds s' (stderr ++ diagnostics.lines) := by
  have hpair : ask s = ((ask s).1, none) := by rw [← hask]
  rw [converse, hpair]
  simp only [takeLine_heard hlines hdecode]
  rfl

theorem converse_blank (hask : (ask s).2 = none) (hlines : s.machine.input.lines = line :: rest)
    (hdecode : Text.decode? line = some text) (hblank : Text.Blank text) :
    converse steps (rounds + 1) s stderr = converse steps rounds (heard s rest) stderr := by
  rw [converse_heard hask hlines hdecode, if_pos ((Text.trim_isEmpty_iff text).mpr hblank)]

theorem converse_run {diagnostics : Diagnostics} (hask : (ask s).2 = none) (hlines : s.machine.input.lines = line :: rest)
    (hdecode : Text.decode? line = some text) (hblank : ¬Text.Blank text)
    (hrun : (heard s rest).run steps (Text.encode (Text.trim text)) = some (diagnostics, s')) :
    converse steps (rounds + 1) s stderr = converse steps rounds s' (stderr ++ diagnostics.lines) := by
  rw [converse_heard hask hlines hdecode, if_neg fun h => hblank ((Text.trim_isEmpty_iff text).mp h), hrun]

/-- A conversation that comes to its end needs no more rounds than there are lines, and one more. -/
theorem Talks.converse (h : Talks steps s turns last) (hends : Ends last (reports stderr turns) t)
    (hrounds : s.machine.input.lines.length < rounds) : converse steps rounds s stderr = some t := by
  obtain ⟨rounds, rfl⟩ := Nat.exists_eq_succ_of_ne_zero (Nat.ne_zero_of_lt hrounds)
  induction h generalizing stderr rounds with
  | here =>
    cases hends with
    | refused hask => exact converse_refused hask
    | closed hask hlines => exact converse_closed hask hlines
  | @blank s line rest _ _ _ hask hlines hdecode hblank _ ih =>
    rw [hlines, List.length_cons] at hrounds
    obtain ⟨rounds, rfl⟩ := Nat.exists_eq_succ_of_ne_zero (by omega : rounds ≠ 0)
    rw [reports_blank] at hends
    rw [converse_blank hask hlines hdecode hblank]
    exact ih hends rounds (Nat.lt_of_succ_lt_succ hrounds)
  | @run s line rest _ _ _ s' _ _ hask hlines hdecode hblank hrun _ _ ih =>
    have hnext : s'.machine.input.lines.length ≤ rest.length := (Session.consumes_run hrun).length_le
    rw [hlines, List.length_cons] at hrounds
    obtain ⟨rounds, rfl⟩ := Nat.exists_eq_succ_of_ne_zero (by omega : rounds ≠ 0)
    rw [converse_run hask hlines hdecode hblank hrun]
    exact ih hends rounds (by omega)

/-- Rounds that come to an end are turns of a conversation. -/
theorem exists_talks (htext : ∀ l ∈ s.machine.input.lines, (Text.decode? l).isSome)
    (h : converse steps rounds s stderr = some t) : ∃ turns last, Talks steps s turns last ∧
      Ends last (reports stderr turns) t := by
  induction rounds generalizing s stderr with
  | zero => cases h
  | succ rounds ih =>
    cases hask : (ask s).2 with
    | some fault =>
      have hpair : ask s = ((ask s).1, some fault) := by rw [← hask]
      cases h.symm.trans (converse_refused hpair)
      exact ⟨[], s, .here, .refused hpair⟩
    | none =>
      cases hlines : s.machine.input.lines with
      | nil =>
        have hpair : ask s = ((ask s).1, none) := by rw [← hask]
        cases h.symm.trans (converse_closed hpair hlines)
        exact ⟨[], s, .here, .closed hpair hlines⟩
      | cons line rest =>
        rw [hlines, List.forall_mem_cons] at htext
        obtain ⟨text, hdecode⟩ := Option.isSome_iff_exists.mp htext.1
        by_cases hblank : Text.Blank text
        · rw [converse_blank hask hlines hdecode hblank] at h
          obtain ⟨turns, last, htalks, hends⟩ := ih htext.2 h
          exact ⟨_, last, .blank hask hlines hdecode hblank htalks, by rwa [reports_blank]⟩
        · cases hrun : (heard s rest).run steps (Text.encode (Text.trim text)) with
          | none =>
            rw [converse_heard hask hlines hdecode, if_neg fun h => hblank ((Text.trim_isEmpty_iff text).mp h), hrun] at h
            cases h
          | some result =>
            obtain ⟨diagnostics, s'⟩ := result
            have hnext : s'.machine.input.lines <:+ rest := Session.consumes_run hrun
            obtain ⟨calls, hreadings⟩ := Session.exists_readings (heard s rest) steps (Text.encode (Text.trim text))
            rw [converse_run hask hlines hdecode hblank hrun] at h
            obtain ⟨turns, last, htalks, hends⟩ := ih (fun l hl => htext.2 l (hnext.subset hl)) h
            exact ⟨_, last, .run hask hlines hdecode hblank hrun hreadings htalks, hends⟩

end Prompt

/-- An input whose third line is blank, and whose last one has two words and no newline. -/
def Prompt.dialogue : List UInt8 := Text.encode "use std::io::cin;\nprint cin();\n \nw x"

/-- A sink that is never flushed breaks the conversation off before the first line is taken. -/
example : Command.perform 5 (fun _ => .error .missing)
    { Machine.initial with input := .ofBytes Prompt.dialogue, sink := { refusesFlush := fun _ _ => some "full" } }
    .prompt = some ⟨"> ", "Error: Failed to flush stdout\n\nCaused by:\n    full\n", 1⟩ := by decide +kernel

end Treewalk
