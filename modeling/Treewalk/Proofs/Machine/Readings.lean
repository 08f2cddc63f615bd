import Treewalk.Proofs.Machine.Gauges
import Treewalk.Proofs.Text.Lines

/-!
What a program takes from its input. Lines are taken by calls of the function that reads a word and by nothing else, each
call takes lines from the front of what the calls before it left, and as many as it needs to find a word: if a line is
left that is not blank, all up to the first such one, and else all that are left.
-/

namespace Treewalk

namespace Input

/-- The line is text, and all of it is white space. -/
def BlankLine (line : List UInt8) : Prop := ∃ text, Text.decode? line = some text ∧ Text.Blank text

/-- What the first word of lines is, and what is left behind it: the word is the first one of the first line that is not
blank, and there is none if all lines are blank. -/
inductive Yields : List (List UInt8) → Option String → List (List UInt8) → Prop where
  | found {blanks line rest text word} : (∀ b ∈ blanks, BlankLine b) → Text.decode? line = some text →
      Text.StartsWith word text → Yields (blanks ++ line :: rest) (some word) rest
  | blank {blanks} : (∀ b ∈ blanks, BlankLine b) → Yields blanks none []

theorem Yields.eq_none_iff {lines rest : List (List UInt8)} {word? : Option String} (h : Yields lines word? rest) :
    word? = none ↔ ∀ line ∈ lines, BlankLine line := by
  cases h with
  | @found blanks line _ _ _ _ hdecode hword =>
    refine ⟨nofun, fun hall => ?_⟩
    obtain ⟨text', hdecode', hblank⟩ := hall line (List.mem_append_right _ List.mem_cons_self)
    cases hdecode.symm.trans hdecode'
    exact absurd hblank (Text.not_blank_of_startsWith hword)
  | blank hblanks => exact ⟨fun _ => hblanks, fun _ => rfl⟩

theorem Yields.cons {line : List UInt8} {lines rest : List (List UInt8)} {word? : Option String} (hline : BlankLine line)
    (h : Yields lines word? rest) : Yields (line :: lines) word? rest := by
  cases h with
  | found hblanks hdecode hword => exact .found (List.forall_mem_cons.mpr ⟨hline, hblanks⟩) hdecode hword
  | blank hblanks => exact .blank (List.forall_mem_cons.mpr ⟨hline, hblanks⟩)

theorem firstWord_of_text {lines : List (List UInt8)} (h : ∀ line ∈ lines, (Text.decode? line).isSome) :
    ∃ word? rest, firstWord lines = (.ok word?, rest) ∧ Yields lines word? rest := by
  induction lines with
  | nil => exact ⟨none, [], rfl, .blank nofun⟩
  | cons line lines ih =>
    rw [List.forall_mem_cons] at h
    obtain ⟨text, hdecode⟩ := Option.isSome_iff_exists.mp h.1
    rcases Text.firstWord?_cases text with ⟨hnone, hblank⟩ | ⟨word, hsome, hword⟩
    · obtain ⟨word?, rest, heq, hyields⟩ := ih h.2
      refine ⟨word?, rest, ?_, hyields.cons ⟨text, hdecode, hblank⟩⟩
      simp only [firstWord, hdecode, hnone, heq]
    · refine ⟨some word, lines, ?_, @Yields.found [] line lines text word nofun hdecode hword⟩
      simp only [firstWord, hdecode, hsome]

theorem firstWord_suffix (lines : List (List UInt8)) : (firstWord lines).2 <:+ lines := by
  induction lines with
  | nil => exact List.suffix_refl _
  | cons line lines ih =>
    unfold firstWord
    split
    · exact List.suffix_cons _ _
    · split
      · exact List.suffix_cons _ _
      · exact ih.trans (List.suffix_cons _ _)

end Input

/-- The second machine has the end of the input of the first one. -/
def Consumes (m m' : Machine) : Prop := m'.input.lines <:+ m.input.lines

instance : Ambient Consumes where
  refl m := List.suffix_refl m.input.lines
  trans h h' := List.IsSuffix.trans h' h
  moves h := by
    cases h with
    | word _ => exact Input.firstWord_suffix _
    | _ => exact List.suffix_refl _
  aside m _ _ _ _ := List.suffix_refl m.input.lines

/-- How many of the given number of lines are gone. -/
def Machine.taken (total : Nat) (m : Machine) : Nat := total - m.input.lines.length

instance (total : Nat) : Ambient fun m m' => m.taken total ≤ m'.taken total where
  refl _ := Nat.le_refl _
  trans h h' := Nat.le_trans h h'
  moves h := Nat.sub_le_sub_left (Ambient.moves (R := Consumes) h).length_le total
  aside _ _ _ _ _ := Nat.le_refl _

/-- What is left of the same input is the same if it is as long. -/
theorem Consumes.lines_eq {m n n' : Machine} (h : Consumes m n) (h' : Consumes m n')
    (htaken : n.taken m.input.lines.length = n'.taken m.input.lines.length) : n.input.lines = n'.input.lines := by
  have hle := h.length_le
  have hle' := h'.length_le
  unfold Machine.taken at htaken
  exact (List.suffix_of_suffix_length_le h h' (by omega)).eq_of_length (by omega)

namespace Activity

/-- The activity is a call of the function that reads a word. -/
def Reads (a : Activity) : Prop :=
  ∃ f arguments line, a.task = .invoke (.native f) arguments line ∧ f.primitive = .readWord

/-- The lines that are taken while the activity is under way. -/
def lines (a : Activity) : List (List UInt8) :=
  a.machine.input.lines.take (a.machine.input.lines.length - a.outcome.machine.input.lines.length)

theorem consumes (a : Activity) : Consumes a.machine a.outcome.machine :=
  perform_durable Consumes a.steps a.task a.machine

theorem lines_append (a : Activity) : a.lines ++ a.outcome.machine.input.lines = a.machine.input.lines := by
  obtain ⟨front, hfront⟩ := a.consumes
  unfold lines
  rw [← hfront]
  simp

theorem lines_ne_nil_iff (a : Activity) {total : Nat} (htotal : a.machine.input.lines.length ≤ total) :
    a.lines ≠ [] ↔ a.machine.taken total < a.outcome.machine.taken total := by
  have hlength := congrArg List.length a.lines_append
  rw [List.length_append] at hlength
  rw [← List.length_pos_iff, Machine.taken, Machine.taken]
  omega

/-- Activities, each of which begins with the lines that the one before it left. -/
inductive InTurn : List (List UInt8) → List (Activity × List Activity) → List (List UInt8) → Prop where
  | nil (lines : List (List UInt8)) : InTurn lines [] lines
  | cons {a outer rest last} : InTurn a.outcome.machine.input.lines rest last →
      InTurn a.machine.input.lines ((a, outer) :: rest) last

/-- What is taken in turn is the front of the lines. -/
theorem InTurn.append {lines last : List (List UInt8)} {calls : List (Activity × List Activity)}
    (h : InTurn lines calls last) : calls.flatMap (·.1.lines) ++ last = lines := by
  induction h with
  | nil => rfl
  | @cons a _ _ _ _ ih => rw [List.flatMap_cons, List.append_assoc, ih, lines_append]

end Activity

/-- Lines are taken by calls of the function that reads a word. -/
theorem readings_gauge (total : Nat) : Gauge (Machine.taken total) Activity.Reads where
  moves a _ hreads m m' h := by
    obtain ⟨steps, task, n⟩ := a
    cases h with
    | word hf => exact absurd ⟨_, _, _, rfl, hf⟩ hreads
    | _ => rfl
  silent := by
    rintro ⟨steps, task, m⟩ ⟨steps', t, n⟩ ⟨f, arguments, line, rfl, -⟩ h
    rcases h.hands Consumes with ⟨hpart, -⟩ | - | ⟨he, -⟩
    · cases hpart
    · cases he

namespace Machine

/-- The calls are those of the program that take lines, in their order: each takes them from the front of what is left. -/
structure Readings (m : Machine) (steps : Nat) (program : List Stmt) (calls : List (Activity × List Activity)) : Prop where
  inTurn : Activity.InTurn m.input.lines calls (m.interpret steps program).2.input.lines
  nodup : calls.Nodup
  mem_iff : ∀ x, x ∈ calls ↔ m.Underway steps program (x.1 :: x.2) ∧ x.1.Reads ∧ x.1.lines ≠ []

theorem inTurn_of_linked {m start last : Machine} {sources : List (Activity × List Activity)} {k l : Nat}
    (h : Gauge.Linked (taken m.input.lines.length) k sources l) (hsources : ∀ x ∈ sources, Consumes m x.1.machine)
    (hstart : Consumes m start) (hk : start.taken m.input.lines.length = k) (hlast : Consumes m last)
    (hl : last.taken m.input.lines.length = l) : Activity.InTurn start.input.lines sources last.input.lines := by
  induction h generalizing start with
  | nil =>
    rw [hstart.lines_eq hlast (hk.trans hl.symm)]
    exact .nil _
  | @cons a outer rest l _ ih =>
    rw [List.forall_mem_cons] at hsources
    rw [hstart.lines_eq hsources.1 hk]
    exact .cons (ih hsources.2 (Lasting.trans hsources.1 a.consumes) rfl hl)

theorem exists_readings (m : Machine) (steps : Nat) (program : List Stmt) : ∃ calls, m.Readings steps program calls := by
  obtain ⟨calls, hlinked, hnodup, hmem⟩ := (readings_gauge m.input.lines.length).exists_linked m steps program
  have hconsumes : ∀ x : Activity × List Activity, m.Underway steps program (x.1 :: x.2) → Consumes m x.1.machine :=
    fun x hx => hx.begins
  refine ⟨calls, inTurn_of_linked hlinked (fun x hx => hconsumes x ((hmem x).mp hx).1) (Lasting.refl m) rfl
    (interpret_stepwise Consumes steps program m) rfl, hnodup, fun x => (hmem x).trans ?_⟩
  refine and_congr_right fun hx => and_congr_right fun _ => ?_
  exact (x.1.lines_ne_nil_iff (hconsumes x hx).length_le).symm

end Machine

/-- A call that reads a word gives the first word of what is left of the input, or nothing if there is none. -/
theorem perform_readWord {k : Nat} {f : Native} {arguments : List Value} {line : Nat} {m : Machine}
    (hf : f.primitive = .readWord) (harity : f.arity.accepts arguments.length)
    (htext : ∀ l ∈ m.input.lines, (Text.decode? l).isSome) : ∃ word? rest, Input.Yields m.input.lines word? rest ∧
    perform (k + 1) (.invoke (.native f) arguments line) m =
      .done (word?.elim .nil .string) { m with input := ⟨rest⟩ } := by
  obtain ⟨word?, rest, heq, hyields⟩ := Input.firstWord_of_text htext
  refine ⟨word?, rest, hyields, ?_⟩
  show Evaluation.invocation (perform k) (.native f) arguments line m = _
  simp only [Evaluation.invocation, if_pos harity, Run.callPrimitive, hf, Run.readWord, Input.takeWord, heq]
  cases word? <;> rfl

end Treewalk
