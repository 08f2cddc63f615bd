import Treewalk.Proofs.Grammar.Layout
import Treewalk.Proofs.Machine.Relabeling
import Treewalk.Proofs.Session.References
import Treewalk.Proofs.Token.Lines

/-!
A source that is refused leaves no trace. It draws identities and may leave distances in the table, but no node of a
later source gets one of these identities. A session behind a refused source and the session without it are twins from
then on, up to the identities: every later run ends alike in both.
-/

namespace Treewalk

open Resolver Grammar

/-- Identities from `base` on move onwards by `count`; all else stays. -/
def Relabeling.skip (base count : Nat) : Relabeling :=
  ⟨fun n => if n < base then n else n + count, fun n => n, fun n => n⟩

namespace Relabeling

variable {base count n : Nat}

theorem skip_of_lt (h : n < base) : (skip base count).node n = n := if_pos h

theorem skip_of_le (h : base ≤ n) : (skip base count).node n = n + count := if_neg (Nat.not_lt.mpr h)

theorem skip_injective (a b : Nat) (h : (skip base count).node a = (skip base count).node b) : a = b := by
  rcases Nat.lt_or_ge a base with ha | ha <;> rcases Nat.lt_or_ge b base with hb | hb
  · rwa [skip_of_lt ha, skip_of_lt hb] at h
  · rw [skip_of_lt ha, skip_of_le hb] at h
    omega
  · rw [skip_of_le ha, skip_of_lt hb] at h
    omega
  · rw [skip_of_le ha, skip_of_le hb] at h
    omega

end Relabeling

/-! ### Heaps with identities that were drawn before -/

theorem Routine.Checked.exists_visit {known : List Visit} {around : List Initializing} {kind : Enclosing}
    {r : Resolver} {routine : Routine} (h : routine.Checked known around kind r) :
    ∀ x ∈ routine.references, ∃ v ∈ known, v.reference = x := by
  intro x hx
  have hperm := (routine.walk kind around r h.shaped).perm
  obtain ⟨v, hv, rfl⟩ := List.mem_map.mp (hperm.mem_iff.mpr hx)
  exact ⟨v, h.visits hv, rfl⟩

section Heaps
variable {f : Relabeling} {known : List Visit} (hline : ∀ n, f.line n = n) (hoffset : ∀ n, f.offset n = n)
  (hnode : ∀ v ∈ known, f.node v.reference.id = v.reference.id)
include hline hoffset hnode

theorem Routine.Checked.relabel_eq {around : List Initializing} {kind : Enclosing} {r : Resolver} {routine : Routine}
    (h : routine.Checked known around kind r) : routine.relabel f = routine := by
  rw [Routine.relabel_congr (g := .same) hline hoffset fun x hx => ?_, Routine.relabel_same]
  obtain ⟨v, hv, rfl⟩ := h.exists_visit x hx
  exact hnode v hv

/-- New labels do not change a sound heap if the identities of all visits stay. -/
theorem Heap.Sound.relabel_eq {h : Heap} (hs : h.Sound known) : h.relabel f = h := by
  have hclosures : h.closures.map (·.relabel f) = h.closures := by
    refine Array.ext (Array.size_map ..) fun i hi hi' => ?_
    rw [Array.getElem_map]
    obtain ⟨around, kind, r, hchecked, -⟩ := hs.closures ⟨i⟩ h.closures[i] (Array.getElem?_eq_getElem hi')
    rw [Closure.relabel, hchecked.relabel_eq hline hoffset hnode]
  have hclasses : h.classes.map (·.relabel f) = h.classes := by
    refine Array.ext (Array.size_map ..) fun i hi hi' => ?_
    rw [Array.getElem_map]
    have hmethods := hs.methods ⟨i⟩ h.classes[i] (Array.getElem?_eq_getElem hi')
    have hentries : h.classes[i].methods.entries.map (Table.mapEntry (·.relabel f)) = h.classes[i].methods.entries := by
      refine (List.map_congr_left fun entry hentry => ?_).trans (List.map_id _)
      obtain ⟨around, kind, r, outer, hchecked, -, -⟩ := hmethods entry hentry
      rw [Table.mapEntry, Closure.relabel, hchecked.relabel_eq hline hoffset hnode]
      rfl
    rw [Class.relabel, Table.map, hentries]
  rw [Heap.relabel, hclosures, hclasses]

end Heaps

/-! ### Sources from a later identity on -/

theorem Program.ofSource_shift (n count : Nat) (source : List UInt8) :
    Program.ofSource (n + count) source =
      ⟨Stmt.relabelAll (.shift count 0 0) (Program.ofSource n source).statements, (Program.ofSource n source).reports,
        (Program.ofSource n source).nextId + count⟩ := by
  have hparse := parse_shift n count 0 0 (Token.exists_finish source)
  have htokens : (Token.good (Token.scan source)).map (·.relabel (.shift count 0 0)) = Token.good (Token.scan source) :=
    List.map_id' _
  rw [htokens] at hparse
  have herrors :
      ((parse n (Token.good (Token.scan source))).errors.map (·.relabel (.shift count 0 0))).map (·.diagnostic)
        = (parse n (Token.good (Token.scan source))).errors.map (·.diagnostic) := by
    rw [List.map_map]
    rfl
  unfold Program.ofSource Program.ofTokens
  dsimp only
  rw [hparse]
  dsimp only [Reading.relabel]
  rw [herrors]
  rfl

namespace Session

section Checks
variable {f : Relabeling} {T : Distances → Distances → Prop} {s s' : Session} {count : Nat} {source : List UInt8}

/-- Checks of one source in two sessions, from identities that are `count` apart: they report the same, and they accept
the same statements up to identities. -/
theorem check_twin (hf : ∀ t : Token, t.relabel f = t) (hT : f.Records T) (hid : s'.nextId = s.nextId + count)
    (htable : T s.machine.distances s'.machine.distances)
    (htrees : ∀ xs n, Program.ofSource s.nextId source = ⟨xs, [], n⟩ →
      Stmt.relabelAll f xs = Stmt.relabelAll (.shift count 0 0) xs) :
    (s'.check source).2.1 = (s.check source).2.1 ∧
    (s'.check source).1 = (s.check source).1.map (Stmt.relabelAll f) ∧
    ∃ distances distances', T distances distances' ∧
      (s.check source).2.2 = ⟨{ s.machine with distances }, (Program.ofSource s.nextId source).nextId⟩ ∧
      (s'.check source).2.2
        = ⟨{ s'.machine with distances := distances' }, (Program.ofSource s.nextId source).nextId + count⟩ := by
  have hshift := Program.ofSource_shift s.nextId count source
  rw [← hid] at hshift
  rcases Program.read_or_reports s.nextId source with ⟨statements, n, hread⟩ | hreports
  · rw [hread] at hshift ⊢
    rw [← htrees statements n hread] at hshift
    have hordered : f.Ordered := fun a b => by rw [hf, hf]
    have hfinding : ∀ x : Finding, x.relabel f = x := fun x => by
      cases x with
      | fault token cause => rw [Finding.relabel, hf]
      | unused token => rw [Finding.relabel, hf]
    have htwin : (Stmt.check s.machine.distances statements).Twin f T []
        (Stmt.check s'.machine.distances (Stmt.relabelAll f statements)) :=
      Stmt.resolveAll_twin hordered hT statements ⟨rfl, rfl, rfl, rfl, rfl, htable⟩
    have hfindings : (Stmt.check s'.machine.distances (Stmt.relabelAll f statements)).findings
        = (Stmt.check s.machine.distances statements).findings := by
      rw [htwin.findings, List.nil_append, List.map_congr_left fun x _ => hfinding x]
      exact List.map_id _
    rw [check_of_read hread, check_of_read hshift, hfindings]
    refine ⟨rfl, ?_, _, _, htwin.distances, rfl, rfl⟩
    split
    · rfl
    · rfl
  · have hreports' : (Program.ofSource s'.nextId source).reports ≠ [] := by rwa [hshift]
    rw [check_of_reports hreports, check_of_reports hreports', hshift]
    exact ⟨rfl, rfl, _, _, htable, rfl, rfl⟩

end Checks

/-! ### Twin sessions -/

/-- Two sessions of which the second one has drawn `count` more identities at a time when `base` were drawn. -/
structure Twin (base count : Nat) (s s' : Session) : Prop where
  machine : s.machine.Twin ⟨.skip base count, [], s.machine, s'.machine⟩ s'.machine
  nextId : s'.nextId = s.nextId + count
  base_le : base ≤ s.nextId

variable {base count : Nat} {s s' : Session}

theorem Twin.check (h : s.Twin base count s') (source : List UInt8) :
    (s'.check source).2.1 = (s.check source).2.1 ∧
    (s'.check source).1 = (s.check source).1.map (Stmt.relabelAll (.skip base count)) ∧
    (s.check source).2.2.Twin base count (s'.check source).2.2 := by
  have htrees (xs : List Stmt) (n : NodeId) (hread : Program.ofSource s.nextId source = ⟨xs, [], n⟩) :
      Stmt.relabelAll (.skip base count) xs = Stmt.relabelAll (.shift count 0 0) xs := by
    have hspans : Spans s.nextId n (Stmt.allReferences xs) := (Program.derives hread).spans
    refine Stmt.relabelAll_congr (f := .skip base count) (g := .shift count 0 0) (fun _ => rfl) (fun _ => rfl)
      fun x hx => ?_
    have hbase : base ≤ x.id := Nat.le_trans h.base_le (hspans.within _ (List.mem_map_of_mem hx)).1
    exact Relabeling.skip_of_le hbase
  obtain ⟨hdiagnostics, hprogram, distances, distances', hdistances, hs, hs'⟩ :=
    check_twin (fun _ => rfl) (Relabeling.records_twin Relabeling.skip_injective) h.nextId h.machine.distances htrees
  refine ⟨hdiagnostics, hprogram, ?_⟩
  rw [hs, hs']
  exact ⟨{ h.machine with distances := hdistances, rules := ⟨.rfl, .rfl⟩ }, rfl,
    Nat.le_trans h.base_le (nextId_le_parse _ _)⟩

/-- A run in twin sessions ends in neither of them, or in both with the same report, and they are twins again. -/
theorem Twin.run (h : s.Twin base count s') (steps : Nat) (source : List UInt8) :
    Option.Rel (fun x y => y.1 = x.1 ∧ x.2.Twin base count y.2) (s.run steps source) (s'.run steps source) := by
  rw [run_eq_proceed, run_eq_proceed]
  obtain ⟨hdiagnostics, hprogram, htwin⟩ := h.check source
  rcases hc : s.check source with ⟨program, diagnostics, t⟩
  rcases hc' : s'.check source with ⟨program', diagnostics', t'⟩
  rw [hc, hc'] at hdiagnostics hprogram htwin
  cases hdiagnostics
  cases hprogram
  cases program with
  | none => exact .some ⟨rfl, htwin⟩
  | some statements =>
    obtain ⟨hending, hmachine⟩ := Machine.twin_interpret steps statements htwin.machine
    have hsame : ∀ ending : Ending, ending.relabel (.skip base count) = ending := fun ending => by cases ending <;> rfl
    rw [hsame] at hending
    rcases hi : Machine.interpret steps statements t.machine with ⟨ending, m⟩
    rcases hi' : Machine.interpret steps (Stmt.relabelAll (.skip base count) statements) t'.machine with ⟨ending', m'⟩
    rw [hi, hi'] at hending hmachine
    cases hending
    have hnotices : m'.notices = m.notices := hmachine.notices.trans (List.map_id _)
    have hnext : { t with machine := m.takeNotices.2 }.Twin base count { t' with machine := m'.takeNotices.2 } :=
      ⟨{ hmachine with notices := rfl, rules := ⟨.rfl, .rfl⟩ }, htwin.nextId, htwin.base_le⟩
    simp only [proceed, hi, hi']
    cases ending with
    | suspended => exact .none
    | _ => exact .some ⟨by rw [Machine.takeNotices, Machine.takeNotices, hnotices], hnext⟩

section Settlements
variable {past : List Visit}

theorem Settled.heap_skip (h : s.Settled past) (hbase : s.nextId ≤ base) :
    s.machine.heap.relabel (.skip base count) = s.machine.heap :=
  h.sound.relabel_eq (fun _ => rfl) (fun _ => rfl) fun _ hv =>
    Relabeling.skip_of_lt (Nat.lt_of_lt_of_le (h.drawn _ (List.mem_map_of_mem hv)) hbase)

/-- A check leaves the distances of all nodes but those of its source, whose identities a later source does not get. -/
theorem Settled.distances_skip (h : s.Settled past) (source : List UInt8) : ∃ count,
    (s.check source).2.2.nextId = s.nextId + count ∧
      s.machine.distances.Twin (.skip s.nextId count) (s.check source).2.2.machine.distances := by
  obtain ⟨hsettled, -⟩ := h.check source
  obtain ⟨distances, n, heq, hn, hsame⟩ := check_leaves s source
  rw [heq] at hsettled ⊢
  obtain ⟨count, rfl⟩ := Nat.exists_eq_add_of_le hn
  refine ⟨count, rfl, fun id => ?_⟩
  rcases Nat.lt_or_ge id s.nextId with hid | hid
  · rw [Relabeling.skip_of_lt hid]
    exact hsame id hid
  · rw [Relabeling.skip_of_le hid, h.undrawn id hid]
    exact hsettled.undrawn _ (Nat.add_le_add_right hid count)

/-- The session behind the check of a source is a twin of the one before it. -/
theorem Settled.twin_of_check (h : s.Settled past) (source : List UInt8) :
    ∃ count, s.Twin s.nextId count (s.check source).2.2 := by
  obtain ⟨count, hcount, hdistances⟩ := h.distances_skip source
  obtain ⟨distances, n, heq, -, -⟩ := check_leaves s source
  rw [heq] at hcount hdistances ⊢
  exact ⟨count, ⟨(h.heap_skip (Nat.le_refl _)).symm, rfl, rfl, hdistances, .refl _, rfl, rfl, rfl,
    (List.map_id _).symm, .rfl, .rfl⟩, hcount, Nat.le_refl _⟩

end Settlements

/-- Runs sources one after another, each with a grant of steps: what is reported of each run, and what the sink holds
behind it. Nothing is given back if the steps of a run do not suffice. -/
def transcript (s : Session) : List (Nat × List UInt8) → Option (List (Diagnostics × String))
  | [] => some []
  | (steps, source) :: later =>
    match s.run steps source with
    | none => none
    | some (diagnostics, s) => (s.transcript later).map ((diagnostics, s.machine.sink.text) :: ·)

theorem Twin.transcript (h : s.Twin base count s') (later : List (Nat × List UInt8)) :
    s'.transcript later = s.transcript later := by
  induction later generalizing s s' with
  | nil => rfl
  | cons first later ih =>
    obtain ⟨steps, source⟩ := first
    have hrun := h.run steps source
    rw [Session.transcript, Session.transcript]
    cases hx : s.run steps source with
    | none =>
      rw [hx] at hrun
      cases hy : s'.run steps source with
      | none => rfl
      | some y =>
        rw [hy] at hrun
        cases hrun
    | some x =>
      rw [hx] at hrun
      cases hy : s'.run steps source with
      | none =>
        rw [hy] at hrun
        cases hrun
      | some y =>
        rw [hy] at hrun
        obtain ⟨d, t⟩ := x
        obtain ⟨d', t'⟩ := y
        cases hrun with
        | some hrun =>
          obtain ⟨hd, ht⟩ := hrun
          cases hd
          dsimp only
          rw [ih ht, ht.machine.sink.text]

end Session

/-! ### What is reported before and behind the check -/

/-- The diagnostic is about the text of a program: its tokens, its grammar or its scopes. -/
def Diagnostic.isStatic : Diagnostic → Bool
  | lex .. => true
  | parse .. => true
  | resolve .. => true
  | _ => false

theorem Diagnostics.reportAll_nil (d : Diagnostics) : d.reportAll [] = d := by
  simp only [reportAll, List.filter_nil, List.append_nil]

theorem Diagnostics.reportAll_append (d : Diagnostics) (xs ys : List Diagnostic) :
    d.reportAll (xs ++ ys) = (d.reportAll xs).reportAll ys := by
  simp only [reportAll, List.filter_append, List.append_assoc]

theorem Ending.diagnostics_not_static (ending : Ending) : ∀ x ∈ ending.diagnostics, x.isStatic = false := by
  intro x hx
  cases ending with
  | finished => cases hx
  | suspended => cases hx
  | failed e =>
    cases List.mem_singleton.mp hx
    rfl
  | unflushed reason =>
    cases List.mem_singleton.mp hx
    rfl

namespace Session

/-- Behind the check nothing is reported about the text of the program. -/
theorem proceed_reports {steps : Nat} {checked : Option (List Stmt) × Diagnostics × Session}
    {diagnostics : Diagnostics} {s : Session} (h : proceed steps checked = some (diagnostics, s)) :
    ∃ reports, diagnostics = checked.2.1.reportAll reports ∧ ∀ x ∈ reports, x.isStatic = false := by
  obtain ⟨_ | statements, before, t⟩ := checked
  · cases h
    exact ⟨[], (Diagnostics.reportAll_nil _).symm, fun x hx => (by cases hx)⟩
  · obtain ⟨ending, m, -, -, heq⟩ := proceed_eq_some h
    cases heq
    have hstatic : ∀ x ∈ m.notices.map (·.diagnostic) ++ ending.diagnostics, x.isStatic = false := by
      intro x hx
      rcases List.mem_append.mp hx with hx | hx
      · obtain ⟨notice, -, rfl⟩ := List.mem_map.mp hx
        rfl
      · exact ending.diagnostics_not_static x hx
    exact ⟨_, (Diagnostics.reportAll_append _ _ _).symm, hstatic⟩

/-- Nothing is wrong with a source that may run. -/
theorem errors_of_accepted {s : Session} {source : List UInt8} {program : List Stmt}
    (h : (s.check source).1 = some program) : (s.check source).2.1.errors = [] := by
  rcases Program.read_or_reports s.nextId source with ⟨statements, n, hread⟩ | hreports
  · rw [check_of_read hread] at h ⊢
    by_cases herrors : (Diagnostics.reportAll {}
        ((Stmt.check s.machine.distances statements).findings.map (·.diagnostic))).hasErrors = true
    · rw [if_pos herrors] at h
      cases h
    · simpa [Diagnostics.hasErrors] using herrors
  · rw [check_of_reports hreports] at h
    cases h

/-- A run that reports something about the text of the program is a refused check and nothing else. -/
theorem run_of_static {s s' : Session} {steps : Nat} {source : List UInt8} {diagnostics : Diagnostics}
    (h : s.run steps source = some (diagnostics, s')) (hstatic : ∃ x ∈ diagnostics.errors, x.isStatic) :
    s' = (s.check source).2.2 := by
  rw [run_eq_proceed] at h
  obtain ⟨reports, rfl, hreports⟩ := proceed_reports h
  obtain ⟨x, hx, hxs⟩ := hstatic
  have hnone : (s.check source).1 = none := by
    cases hprogram : (s.check source).1 with
    | none => rfl
    | some program =>
      rw [Diagnostics.reportAll, errors_of_accepted hprogram, List.nil_append] at hx
      rw [hreports x (List.mem_filter.mp hx).1] at hxs
      cases hxs
  rcases hc : s.check source with ⟨program, before, t⟩
  rw [hc] at h hnone
  cases hnone
  exact (Prod.mk.inj (Option.some.inj h)).2.symm

/-- What is reported before anything runs does not depend on the session. -/
theorem check_reports (s : Session) (source : List UInt8) :
    (s.check source).2.1 = (({} : Session).check source).2.1 := by
  refine (check_twin (f := .shift s.nextId 0 0) (T := fun _ _ => True) (fun _ => rfl) (fun _ _ _ _ _ => trivial)
    (s := {}) ?_ trivial fun _ _ _ => rfl).1
  exact (Nat.zero_add s.nextId).symm

end Session

/-- In every session, a run that reports an error in the text of its source changes nothing but the counter of
identities and the table of distances, and every sequence of later runs reports and prints what it would without it.
Moreover, what is reported about the text of a source is in every session what it is in a new one. -/
theorem refused_runs_leave_no_trace :
    (∀ (s : Session) (past : List Visit) (steps : Nat) (source : List UInt8) (diagnostics : Diagnostics) (s' : Session),
      s.Reached past → s.run steps source = some (diagnostics, s') → (∃ x ∈ diagnostics.errors, x.isStatic) →
        (∃ distances nextId, s' = ⟨{ s.machine with distances }, nextId⟩) ∧
          ∀ later, s'.transcript later = s.transcript later) ∧
    ∀ (s : Session) (source : List UInt8),
      (s.check source).2.1 = (({} : Session).check source).2.1 ∧
        ∀ steps diagnostics s', s.run steps source = some (diagnostics, s') →
          ∃ reports, diagnostics = (({} : Session).check source).2.1.reportAll reports ∧
            ∀ x ∈ reports, x.isStatic = false := by
  constructor
  · intro s past steps source diagnostics s' hs hrun hstatic
    obtain rfl := Session.run_of_static hrun hstatic
    obtain ⟨distances, n, heq, -, -⟩ := Session.check_leaves s source
    obtain ⟨count, htwin⟩ := hs.settled.twin_of_check source
    exact ⟨⟨distances, n, heq⟩, htwin.transcript⟩
  · intro s source
    refine ⟨s.check_reports source, fun steps diagnostics s' hrun => ?_⟩
    rw [Session.run_eq_proceed] at hrun
    obtain ⟨reports, rfl, hreports⟩ := Session.proceed_reports hrun
    exact ⟨reports, by rw [s.check_reports source], hreports⟩

/-! ### A refused source between a function and its call -/

namespace Stray

/-- A block with a reference that gets a distance, and a statement that is refused. -/
def refused : List UInt8 := Text.encode "\x7b var a; a; \x7d break;"

/-- The report of the refused statement. -/
def reports : Diagnostics := ⟨[.resolve ⟨1, some "break"⟩ "Can't use 'break' outside of a loop."], []⟩

/-- The session behind the refused source. -/
def session : Session where
  machine := { Identity.session.machine with distances := Identity.session.machine.distances.record 1 0 }
  nextId := 2

open Identity in
theorem scan_refused : Token.scan refused = [mark .leftBrace 0, mark .kwVar 2, name "a" 6, mark .semicolon 7,
    name "a" 9, mark .semicolon 10, mark .rightBrace 12, mark .kwBreak 14, mark .semicolon 19,
    ⟨.finish, "", 1, 20⟩].map .ok := by decide +kernel

theorem run_refused : Identity.session.run 1 refused = some (reports, session) := by
  simp only [Session.run, Session.parse, Program.ofSource, scan_refused]
  rfl

/-- A call of the function from before. -/
def later : List UInt8 := Text.encode "print f(nil);"

theorem transcript_later : Identity.session.transcript [(5, later)] = some [({}, "nil\n")] := by decide +kernel

end Stray

/-- A function that was declared before a refused source is called behind it. -/
theorem call_behind_refused_source :
    Identity.session.Reached (Session.visits {} Identity.declaration) ∧
      Identity.session.run 1 Stray.refused = some (Stray.reports, Stray.session) ∧
      (∃ x ∈ Stray.reports.errors, x.isStatic) ∧
      Stray.session.transcript [(5, Stray.later)] = some [({}, "nil\n")] ∧
      (Stray.session.check Stray.refused).2.1 = (({} : Session).check Stray.refused).2.1 := by
  have hs : Identity.session.Reached (Session.visits {} Identity.declaration) :=
    .run (.start {} {} {} []) Identity.run_declaration
  have hstatic : ∃ x ∈ Stray.reports.errors, x.isStatic := ⟨_, List.mem_cons_self, rfl⟩
  obtain ⟨-, hlater⟩ := refused_runs_leave_no_trace.1 _ _ _ _ _ _ hs Stray.run_refused hstatic
  exact ⟨hs, Stray.run_refused, hstatic, (hlater _).trans Stray.transcript_later,
    (refused_runs_leave_no_trace.2 _ _).1⟩

end Treewalk
