import Treewalk.Proofs.Machine.Surroundings
import Treewalk.Proofs.Session.References

/-!
The identities of nodes in the history of a session. Whatever sources are read and run, with or without errors, the
references in all trees that the readings give have different identities, and each is visited at most once by the checks,
as their logs say too. So a distance is recorded only where there is none yet, and whenever a reference is evaluated in a later run, its distance
is the one that was recorded for it.
-/

namespace Treewalk

open Grammar

/-- The second machine has the table of the first one. -/
def SameTable (m m' : Machine) : Prop := m'.distances = m.distances

instance : Ambient SameTable where
  refl _ := rfl
  trans h h' := Eq.trans h' h
  moves h := by cases h <;> rfl
  aside _ _ _ _ _ := rfl

/-- A reference to the node means the frame at the distance. -/
def Machine.Uses (m : Machine) (id : NodeId) (distance : Nat) : Prop :=
  ∀ name, m.target? id name = m.heap.ancestor? m.frame distance

theorem Machine.uses_of_find? {m : Machine} {id : NodeId} {distance : Nat} (h : m.distances.find? id = some distance) :
    m.Uses id distance := fun name => by simp only [target?, h]

/-- What begins in the course of an activity is under way on top of it. -/
theorem Begins.underway {steps n : Nat} {program : List Stmt} {m m₁ m₂ : Machine} {task t : Task} {outer : List Activity}
    (hb : Begins n task m₁ t m₂) (h : m.Underway steps program (⟨n, task, m₁⟩ :: outer)) :
    ∃ k below, m.Underway steps program (⟨k, t, m₂⟩ :: below) := by
  induction hb generalizing outer with
  | self => exact ⟨_, _, h⟩
  | within hasks _ ih => exact ih (h.within (.intro hasks))

theorem Machine.Reaches.underway {steps : Nat} {program : List Stmt} {m m' : Machine} {task : Task}
    (h : m.Reaches steps program task m') : ∃ k below, m.Underway steps program (⟨k, task, m'⟩ :: below) := by
  induction h with
  | here hb => exact hb.underway .here
  | later hnext _ ih =>
    obtain ⟨k, below, hunder⟩ := ih
    exact ⟨k, below, .later hnext hunder⟩

namespace Distances

/-- Each of the visits is noted at a node that has no distance yet. -/
def Fresh (d : Distances) (noted : List Visit) : Prop :=
  ∀ before v after, noted = before ++ v :: after → (before.foldl note d).find? v.reference.id = none

theorem fresh_of_nodup {d : Distances} {noted : List Visit} (hnodup : (noted.map (·.reference.id)).Nodup)
    (hnone : ∀ v ∈ noted, d.find? v.reference.id = none) : d.Fresh noted := by
  rintro before v after rfl
  rw [List.map_append, List.map_cons] at hnodup
  rw [find?_foldl_note_of_notMem d fun hmem => ?_]
  · exact hnone v (List.mem_append_right _ List.mem_cons_self)
  · exact (List.nodup_append.mp hnodup).2.2 _ hmem _ List.mem_cons_self rfl

end Distances

namespace Session

/-- The visits of the check in a source that can be read, also if the check refuses it. -/
def allVisits (s : Session) (source : List UInt8) : List Visit :=
  match (s.parse source).1 with
  | some program => Stmt.allVisits [] program { distances := s.machine.distances }
  | none => []

/-- The log of the check of a source that can be read, also if the check refuses it. -/
def lookups (s : Session) (source : List UInt8) : List Lookup :=
  match (s.parse source).1 with
  | some program => (Stmt.check s.machine.distances program).log
  | none => []

/-- The first session leads to the second one by readings and runs of sources, whatever is wrong with these: the
statements that the readings gave, the visits of the checks, and their logs. Channels, host functions and values of global
names may be exchanged in between. -/
inductive Leads (s : Session) : List Stmt → List Visit → List Lookup → Session → Prop where
  | refl : Leads s [] [] [] s
  | parse {trees visits log t} (source : List UInt8) : Leads s trees visits log t →
      Leads s (trees ++ (Program.ofSource t.nextId source).statements) visits log (t.parse source).2.2
  | run {trees visits log t steps source diagnostics t'} : Leads s trees visits log t →
      t.run steps source = some (diagnostics, t') →
      Leads s (trees ++ (Program.ofSource t.nextId source).statements) (visits ++ t.allVisits source)
        (log ++ t.lookups source) t'
  | define {trees visits log t} (name : String) (value : Value) : Leads s trees visits log t →
      Leads s trees visits log { t with machine := t.machine.define globalFrame name value }
  | exchange {trees visits log t} (sink : Sink) (input : Input) (clock : Clock) (host : List HostFunction) :
      Leads s trees visits log t →
      Leads s trees visits log { t with machine := { t.machine with sink, input, clock, host } }

/-- In between, the references of the trees have taken their identities, the visits were at such references, at each at
most once, and what was recorded are distances of visits, those that are in the log. -/
structure Advances (s : Session) (trees : List Stmt) (visits : List Visit) (log : List Lookup) (t : Session) : Prop where
  spans : Spans s.nextId t.nextId (Stmt.allReferences trees)
  visited : (visits.map (·.reference)).Subperm (Stmt.allReferences trees)
  noted : ∃ noted : List Visit, noted.Sublist visits ∧ log = noted.map Visit.lookup ∧
    t.machine.distances = noted.foldl Distances.note s.machine.distances

namespace Advances

variable {s t u : Session} {trees more : List Stmt} {visits later : List Visit} {log further : List Lookup}

theorem of_table (hnext : t.nextId = s.nextId) (h : SameTable s.machine t.machine) : Advances s [] [] [] t :=
  ⟨.nil (Nat.le_of_eq hnext.symm), List.Subperm.refl _, [], List.Sublist.refl _, rfl, h⟩

theorem trans (h : Advances s trees visits log t) (h' : Advances t more later further u) :
    Advances s (trees ++ more) (visits ++ later) (log ++ further) u := by
  refine ⟨?_, ?_, ?_⟩
  · rw [allReferences_append]
    exact h.spans.append h'.spans
  · rw [List.map_append, allReferences_append]
    exact h.visited.append h'.visited
  · obtain ⟨noted, hsub, rfl, heq⟩ := h.noted
    obtain ⟨noted', hsub', rfl, heq'⟩ := h'.noted
    exact ⟨noted ++ noted', hsub.append hsub', List.map_append.symm, by rw [heq', heq, List.foldl_append]⟩

theorem visits_spans (h : Advances s trees visits log t) : Spans s.nextId t.nextId (visits.map (·.reference)) :=
  h.spans.subperm h.visited

theorem within (h : Advances s trees visits log t) {noted : List Visit} (hsub : noted.Sublist visits) {n : Nat}
    (hn : n ∈ noted.map (·.reference.id)) : s.nextId ≤ n ∧ n < t.nextId := by
  refine h.visits_spans.within n ?_
  rw [← ids_of_visits]
  exact (hsub.map _).subset hn

/-- Nodes that have an identity already are left alone. -/
theorem find?_of_lt (h : Advances s trees visits log t) {n : Nat} (hn : n < s.nextId) :
    t.machine.distances.find? n = s.machine.distances.find? n := by
  obtain ⟨noted, hsub, -, heq⟩ := h.noted
  rw [heq, Distances.find?_foldl_note_of_notMem _ fun hmem => Nat.not_le.mpr hn (h.within hsub hmem).1]

/-- Nodes that have no identity yet are left alone. -/
theorem find?_of_le (h : Advances s trees visits log t) {n : Nat} (hn : t.nextId ≤ n) :
    t.machine.distances.find? n = s.machine.distances.find? n := by
  obtain ⟨noted, hsub, -, heq⟩ := h.noted
  rw [heq, Distances.find?_foldl_note_of_notMem _ fun hmem => Nat.not_lt.mpr hn (h.within hsub hmem).2]

end Advances

variable {s t : Session} {source : List UInt8}

/-- A reading gives trees whose references take their identities, also if something is reported about it. -/
theorem advances_parse (s : Session) (source : List UInt8) :
    Advances s (Program.ofSource s.nextId source).statements [] [] (s.parse source).2.2 :=
  ⟨spans_parse _ _, List.nil_subperm, [], List.Sublist.refl _, rfl, rfl⟩

/-- A check visits the references that the reading gave, also if it refuses them. -/
theorem advances_check (s : Session) (source : List UInt8) :
    Advances s (Program.ofSource s.nextId source).statements (s.allVisits source) (s.lookups source)
      (s.check source).2.2 := by
  have hparse := advances_parse s source
  rcases Program.read_or_reports s.nextId source with ⟨statements, n, hread⟩ | hreports
  · have hvisits : s.allVisits source = Stmt.allVisits [] statements { distances := s.machine.distances } := by
      simp only [allVisits, parse_of_read hread]
    have hlookups : s.lookups source = (Stmt.check s.machine.distances statements).log := by
      simp only [lookups, parse_of_read hread]
    have hwalk := Stmt.allWalk statements [] { distances := s.machine.distances } (Program.derives hread).shaped
    obtain ⟨noted, hsub, hnoted⟩ := hwalk.noted
    rw [hread, parse_of_read hread] at hparse
    rw [hread, check_of_read hread, hvisits, hlookups]
    exact ⟨hparse.spans, hwalk.perm.subperm, noted, hsub, hnoted.log, hnoted.distances⟩
  · have hvisits : s.allVisits source = [] := by simp only [allVisits, parse_of_reports hreports]
    have hlookups : s.lookups source = [] := by simp only [lookups, parse_of_reports hreports]
    rw [hvisits, hlookups, check_of_reports hreports]
    exact hparse

/-- A check that accepts a source notes all of its visits. -/
theorem noted_check {program : List Stmt} (h : (s.check source).1 = some program) :
    s.lookups source = (s.allVisits source).map Visit.lookup ∧
      (s.check source).2.2.machine.distances = (s.allVisits source).foldl Distances.note s.machine.distances := by
  rcases Program.read_or_reports s.nextId source with ⟨statements, n, hread⟩ | hreports
  · have hwalk := Stmt.allWalk statements [] { distances := s.machine.distances } (Program.derives hread).shaped
    by_cases hclean : (Stmt.check s.machine.distances statements).Clean
    · rw [check_of_clean hread hclean, allVisits, lookups, parse_of_read hread]
      exact ⟨(hwalk.complete hclean).log, (hwalk.complete hclean).distances⟩
    · rw [check_of_read hread, if_pos ((hasErrors_findings_iff _).mpr hclean)] at h
      cases h
  · rw [check_of_reports hreports] at h
    cases h

theorem advances_run {steps : Nat} {diagnostics : Diagnostics} (h : s.run steps source = some (diagnostics, t)) :
    Advances s (Program.ofSource s.nextId source).statements (s.allVisits source) (s.lookups source) t := by
  have hcheck := advances_check s source
  rw [run_eq_proceed] at h
  rcases hchecked : s.check source with ⟨_ | program, reports, s'⟩ <;> rw [hchecked] at h hcheck
  · cases h
    exact hcheck
  · obtain ⟨ending, m, hended, -, heq⟩ := proceed_eq_some h
    have htable := Machine.interpret_stepwise SameTable steps program s'.machine
    rw [hended] at htable
    cases heq
    have hafter : Advances s' [] [] [] { s' with machine := { m with notices := [] } } := .of_table rfl htable
    have := hcheck.trans hafter
    rw [List.append_nil, List.append_nil, List.append_nil] at this
    exact this

theorem Leads.advances {trees : List Stmt} {visits : List Visit} {log : List Lookup} (h : s.Leads trees visits log t) :
    Advances s trees visits log t := by
  induction h with
  | refl => exact .of_table rfl rfl
  | @parse trees visits log t source _ ih =>
    have := ih.trans (advances_parse t source)
    rw [List.append_nil, List.append_nil] at this
    exact this
  | run _ hrun ih => exact ih.trans (advances_run hrun)
  | define name value _ ih => exact ⟨ih.spans, ih.visited, ih.noted⟩
  | exchange sink input clock host _ ih => exact ⟨ih.spans, ih.visited, ih.noted⟩

end Session

/-- Whatever sources a session has read and run, and whatever it reads next: the references in all statements that the
readings gave have different identities; the checks have visited each of them at most once, and none is more than once in
their logs. What they recorded are the distances of the visits in the logs, each at a node that had none; and all visits are
there where the source is accepted. A distance that is in the table at some time is there from then on, and a reference to
its node means the frame at that distance, wherever a task begins or ends in the course of any later source. -/
theorem identities_are_never_reused {sink : Sink} {input : Input} {clock : Clock} {host : List HostFunction}
    {s t : Session} {trees more : List Stmt} {visits later : List Visit} {log further : List Lookup}
    (hs : Session.Leads { machine := { Machine.initial with sink, input, clock, host } } trees visits log s)
    (ht : s.Leads more later further t) (source : List UInt8) :
    ((Stmt.allReferences (trees ++ more ++ (Program.ofSource t.nextId source).statements)).map (·.id)).Nodup ∧
    ((visits ++ later ++ t.allVisits source).map (·.reference)).Subperm
      (Stmt.allReferences (trees ++ more ++ (Program.ofSource t.nextId source).statements)) ∧
    ((log ++ further ++ t.lookups source).map (·.id)).Subperm
      ((Stmt.allReferences (trees ++ more ++ (Program.ofSource t.nextId source).statements)).map (·.id)) ∧
    (∃ noted : List Visit, noted.Sublist (visits ++ later ++ t.allVisits source) ∧ Distances.Fresh {} noted ∧
      log ++ further ++ t.lookups source = noted.map Visit.lookup ∧
      (t.check source).2.2.machine.distances = noted.foldl Distances.note {}) ∧
    (∀ program, (t.check source).1 = some program →
      t.lookups source = (t.allVisits source).map Visit.lookup ∧
      (t.check source).2.2.machine.distances = (t.allVisits source).foldl Distances.note t.machine.distances) ∧
    ∀ id distance, s.machine.distances.find? id = some distance →
      t.machine.distances.find? id = some distance ∧
      ∀ steps program task m, (t.check source).1 = some program →
        (t.check source).2.2.machine.Reaches steps program task m →
        m.Uses id distance ∧ ∀ n, (perform n task m).machine.Uses id distance := by
  have hbefore := hs.advances
  have hbetween := ht.advances
  have hcheck := Session.advances_check t source
  have hall := (hbefore.trans hbetween).trans hcheck
  obtain ⟨noted, hsub, hlog, heq⟩ := hall.noted
  refine ⟨hall.spans.nodup, hall.visited, ?_, ?_, fun _ => Session.noted_check, fun id distance hd => ?_⟩
  · obtain ⟨visited, hperm, hvisited⟩ := hall.visited
    have hids : (noted.map (·.reference.id)).Subperm (visited.map (·.id)) :=
      (hsub.map _).subperm.trans (Session.ids_of_visits _ ▸ (hperm.map (·.id)).symm.subperm)
    rw [hlog, List.map_map]
    exact hids.trans (hvisited.map (·.id)).subperm
  · refine ⟨noted, hsub, Distances.fresh_of_nodup ((hsub.map _).nodup ?_) fun _ _ => ?_, hlog, heq⟩
    · rw [Session.ids_of_visits]
      exact hall.visits_spans.nodup
    · simp [Distances.find?]
  · have hdrawn : id < s.nextId := by
      by_contra hle
      rw [hbefore.find?_of_le (Nat.not_lt.mp hle)] at hd
      simp [Machine.initial, Distances.find?] at hd
    have hkept : t.machine.distances.find? id = some distance := (hbetween.find?_of_lt hdrawn).trans hd
    refine ⟨hkept, fun steps program task m _ hreach => ?_⟩
    have hfound : (t.check source).2.2.machine.distances.find? id = some distance :=
      (hcheck.find?_of_lt (Nat.lt_of_lt_of_le hdrawn hbetween.spans.le)).trans hkept
    obtain ⟨k, below, hunder⟩ := hreach.underway
    have hm : SameTable (t.check source).2.2.machine m := hunder.begins
    have huses : ∀ {w : Machine}, SameTable m w → w.Uses id distance := fun hw =>
      Machine.uses_of_find? ((congrArg (·.find? id) (hw.trans hm)).trans hfound)
    exact ⟨huses rfl, fun n => huses (perform_durable SameTable n task m)⟩

/-- The argument of a function from an earlier run, within a call. -/
theorem argument_keeps_its_distance :
    Session.Leads {} (Program.ofSource 0 Identity.declaration).statements (Session.allVisits {} Identity.declaration)
        (Session.lookups {} Identity.declaration) Identity.session ∧
      (Identity.session.check Identity.call).1 = some [Identity.statement] ∧
      (Identity.session.check Identity.call).2.2.machine.Reaches 5 [Identity.statement] (.evaluate Identity.argument)
        Identity.machine ∧
      Identity.session.machine.distances.find? 0 = some 0 ∧
      Identity.machine.Uses 0 0 := by
  have hs : Session.Leads { machine := { Machine.initial with sink := {}, input := {}, clock := {}, host := [] } }
      (Program.ofSource 0 Identity.declaration).statements (Session.allVisits {} Identity.declaration)
      (Session.lookups {} Identity.declaration) Identity.session := .run .refl Identity.run_declaration
  obtain ⟨hprogram, hmachine⟩ := Identity.check_call
  have hreach := Identity.reaches_argument
  rw [← hmachine] at hreach
  have hfound : Identity.session.machine.distances.find? 0 = some 0 := rfl
  obtain ⟨-, -, -, -, -, huses⟩ := identities_are_never_reused hs .refl Identity.call
  exact ⟨hs, hprogram, hreach, hfound, ((huses 0 0 hfound).2 5 _ _ _ hprogram hreach).1⟩

end Treewalk
