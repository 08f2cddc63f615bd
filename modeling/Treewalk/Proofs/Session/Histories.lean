import Mathlib.Data.List.Nodup
import Treewalk.Proofs.Scope.Agreement
import Treewalk.Proofs.Session.Checking

/-!
Histories of sessions, and what they keep. Between two runs the machine is in the outermost frame of a heap in which
every function stands in frames that mirror the scopes in which it was checked, in whichever run that was. Identities
are never drawn twice, so that each visit of a check still has its distance in all later runs.
-/

namespace Treewalk

open Resolver Grammar

namespace Session

/-- The visits of the check in a source, if it may run. -/
def visits (s : Session) (source : List UInt8) : List Visit :=
  match (s.check source).1 with
  | some program => Stmt.allVisits [] program { distances := s.machine.distances }
  | none => []

theorem visits_of_refused {s : Session} {source : List UInt8} (h : (s.check source).1 = none) :
    s.visits source = [] := by rw [visits, h]

theorem visits_of_accepted {s : Session} {source : List UInt8} {program : List Stmt}
    (h : (s.check source).1 = some program) :
    s.visits source = Stmt.allVisits [] program { distances := s.machine.distances } := by rw [visits, h]

/-- A session with a history, and the visits of the check in all sources that ran. It may have any channels and host
functions, which may be exchanged between runs, as may be the values of global names. -/
inductive Reached : Session → List Visit → Prop where
  | start (sink : Sink) (input : Input) (clock : Clock) (host : List HostFunction) :
      Reached { machine := { Machine.initial with sink, input, clock, host } } []
  | parse {s past} (source : List UInt8) : Reached s past → Reached (s.parse source).2.2 past
  | run {s past steps source diagnostics s'} : Reached s past → run steps s source = some (diagnostics, s') →
      Reached s' (past ++ s.visits source)
  | define {s past} (name : String) (value : Value) : Reached s past →
      Reached { s with machine := s.machine.define globalFrame name value } past
  | exchange {s past} (sink : Sink) (input : Input) (clock : Clock) (host : List HostFunction) : Reached s past →
      Reached { s with machine := { s.machine with sink, input, clock, host } } past

/-- What a history keeps: the heap is sound, the machine is in the outermost frame, and the table of distances holds
those of the visits under identities that are not drawn again. -/
structure Settled (past : List Visit) (s : Session) : Prop where
  sound : s.machine.heap.Sound past
  frame : s.machine.frame = globalFrame
  drawn : ∀ n : Nat, n ∈ past.map (·.reference.id) → n < s.nextId
  distinct : (past.map (·.reference.id)).Nodup
  recorded : ∀ v ∈ past, s.machine.distances.find? v.reference.id = distance? v.scopes v.name
  undrawn : ∀ n : Nat, s.nextId ≤ n → s.machine.distances.find? n = none

variable {s : Session} {past : List Visit}

theorem ids_of_visits (visits : List Visit) :
    visits.map (·.reference.id) = (visits.map (·.reference)).map (·.id) := by
  rw [List.map_map]
  rfl

theorem Settled.stands (h : s.Settled past) : s.machine.Stands past [] [] := ⟨⟨h.sound, h.recorded⟩, h.frame⟩

/-- Drawing identities unsettles nothing. -/
theorem Settled.draw (h : s.Settled past) {n : Nat} (hn : s.nextId ≤ n) : Settled past { s with nextId := n } :=
  ⟨h.sound, h.frame, fun k hk => Nat.lt_of_lt_of_le (h.drawn k hk) hn, h.distinct, h.recorded,
    fun k hk => h.undrawn k (Nat.le_trans hn hk)⟩

/-- A machine that went on unsettles nothing. -/
theorem Settled.onward (h : s.Settled past) {m : Machine} (ho : Onward past s.machine m) :
    Settled past { s with machine := m } :=
  ⟨ho.heap.sound h.sound, ho.frame.trans h.frame, h.drawn, h.distinct,
    fun v hv => by rw [← h.recorded v hv, ho.distances], fun n hn => by rw [← h.undrawn n hn, ho.distances]⟩

/-- Distances of other nodes unsettle nothing. -/
theorem Settled.record (h : s.Settled past) {references : List Reference} {n : Nat} {distances : Distances}
    (hspans : Spans s.nextId n references)
    (hsame : ∀ id, id ∉ references.map (·.id) → distances.find? id = s.machine.distances.find? id) :
    Settled past ⟨{ s.machine with distances }, n⟩ := by
  have hle : s.nextId ≤ n := hspans.le
  have hold : ∀ k : Nat, k < s.nextId → distances.find? k = s.machine.distances.find? k := fun k hk =>
    hsame k fun hmem => absurd (hspans.within k hmem).1 (Nat.not_le.mpr hk)
  refine ⟨h.sound, h.frame, (h.draw hle).drawn, h.distinct, fun v hv => ?_, fun k hk => ?_⟩
  · rw [← h.recorded v hv]
    exact hold _ (h.drawn _ (List.mem_map_of_mem hv))
  · rw [← h.undrawn k (Nat.le_trans hle hk)]
    exact hsame k fun hmem => absurd (hspans.within k hmem).2 (Nat.not_lt.mpr hk)

/-- Visits of nodes with identities that were drawn since, and with their distances in the table, may be added. -/
theorem Settled.append (h : s.Settled past) {start : Nat} {more : List Visit}
    (hpast : ∀ n : Nat, n ∈ past.map (·.reference.id) → n < start)
    (hspans : Spans start s.nextId (more.map (·.reference)))
    (hrecorded : ∀ v ∈ more, s.machine.distances.find? v.reference.id = distance? v.scopes v.name) :
    s.Settled (past ++ more) := by
  refine ⟨h.sound.mono (List.subset_append_left _ _), h.frame, fun n hn => ?_, ?_, fun v hv => ?_, h.undrawn⟩
  · rw [List.map_append, List.mem_append, ids_of_visits more] at hn
    exact hn.elim (h.drawn n) fun hn => (hspans.within n hn).2
  · rw [List.map_append, ids_of_visits more, List.nodup_append]
    refine ⟨h.distinct, hspans.nodup, fun n hn k hk heq => ?_⟩
    subst heq
    exact absurd (hpast n hn) (Nat.not_lt.mpr (hspans.within n hk).1)
  · exact (List.mem_append.mp hv).elim (h.recorded v) (hrecorded v)

/-- A check draws identities and records distances of nodes that have them; all else stays. -/
theorem check_leaves (s : Session) (source : List UInt8) : ∃ (distances : Distances) (n : Nat),
    (s.check source).2.2 = ⟨{ s.machine with distances }, n⟩ ∧ s.nextId ≤ n ∧
      ∀ k : Nat, k < s.nextId → distances.find? k = s.machine.distances.find? k := by
  rcases check_cases s source with ⟨n, hn, -, heq⟩ | ⟨program, n, checked, hderives, rfl, heq, -⟩
  · exact ⟨s.machine.distances, n, heq, hn, fun _ _ => rfl⟩
  · have hspans : Spans s.nextId n (Stmt.allReferences program) := hderives.spans
    have hwalk := Stmt.allWalk program [] { distances := s.machine.distances } hderives.shaped
    exact ⟨_, n, heq, hspans.le, fun k hk =>
      hwalk.untouched k fun hmem => absurd (hspans.within k hmem).1 (Nat.not_le.mpr hk)⟩

/-- A run leaves the machine as the check does if the source is refused, and else what the program leaves of it, without
notices. -/
theorem run_leaves {s s' : Session} {steps : Nat} {source : List UInt8} {diagnostics : Diagnostics}
    (h : s.run steps source = some (diagnostics, s')) : ∃ distances : Distances,
    (s.check source).2.2.machine = { s.machine with distances } ∧
      ((s.check source).1 = none ∧ s'.machine = { s.machine with distances } ∨
        ∃ program m, (s.check source).1 = some program ∧
          (Machine.interpret steps program { s.machine with distances }).2 = m ∧ s'.machine = { m with notices := [] }) := by
  obtain ⟨distances, n, hleft, -, -⟩ := check_leaves s source
  refine ⟨distances, congrArg Session.machine hleft, ?_⟩
  rw [run_eq_proceed] at h
  rcases hcheck : s.check source with ⟨_ | program, reports, t⟩ <;> rw [hcheck] at h hleft
  · cases h
    cases hleft
    exact Or.inl ⟨rfl, rfl⟩
  · obtain ⟨ending, m, hended, -, heq⟩ := proceed_eq_some h
    cases heq
    cases hleft
    exact Or.inr ⟨program, m, rfl, congrArg Prod.snd hended, rfl⟩

/-- Checking a source unsettles nothing. If it may run, its statements are ready. -/
theorem Settled.check (h : s.Settled past) (source : List UInt8) :
    Settled (past ++ s.visits source) (s.check source).2.2 ∧
      ∀ program, (s.check source).1 = some program →
        Stmt.AllReady (past ++ s.visits source) [] { distances := s.machine.distances } program := by
  rcases check_cases s source with ⟨n, hn, hnone, heq⟩ | ⟨program, n, checked, hderives, rfl, heq, hcases⟩
  · rw [heq, visits_of_refused hnone, List.append_nil, hnone]
    exact ⟨h.draw hn, fun _ hsome => (by cases hsome)⟩
  · have hspans : Spans s.nextId n (Stmt.allReferences program) := hderives.spans
    have hshaped : Stmt.AllShaped program := hderives.shaped
    have hwalk := Stmt.allWalk program [] { distances := s.machine.distances } hshaped
    have hsettled := h.record hspans hwalk.untouched
    rw [heq]
    rcases hcases with ⟨hnone, -⟩ | ⟨hsome, hclean⟩
    · rw [visits_of_refused hnone, List.append_nil, hnone]
      exact ⟨hsettled, fun _ hsome => (by cases hsome)⟩
    · rw [visits_of_accepted hsome, hsome]
      have hvisits := hspans.perm hwalk.perm.symm
      refine ⟨hsettled.append h.drawn hvisits fun v hv => ?_, fun _ heq => ?_⟩
      · refine (congrArg (·.find? v.reference.id) (hwalk.distances hclean)).trans ?_
        refine Distances.find?_foldl_note_of_mem hv ?_ ?_
        · rw [ids_of_visits]
          exact hvisits.nodup
        · exact h.undrawn _ (hvisits.within _ (List.mem_map_of_mem (List.mem_map_of_mem hv))).1
      · cases heq
        exact ⟨hshaped, hclean, List.subset_append_right _ _⟩

/-- What runs behind the check unsettles nothing. -/
theorem Settled.proceed {steps : Nat} {checked : Option (List Stmt) × Diagnostics × Session} {r : Resolver}
    {diagnostics : Diagnostics} {s' : Session} (h : checked.2.2.Settled past)
    (hready : ∀ program, checked.1 = some program → Stmt.AllReady past [] r program) (hr : r.names = [])
    (hrun : Session.proceed steps checked = some (diagnostics, s')) : s'.Settled past := by
  obtain ⟨_ | program, reports, s⟩ := checked
  · cases hrun
    exact h
  · have ho : Onward past s.machine (s.machine.interpret steps program).2 :=
      Machine.interpret_onward (hready program rfl) hr h.stands
    obtain ⟨ending, m, hended, -, heq⟩ := proceed_eq_some hrun
    rw [hended] at ho
    cases heq
    exact h.onward (Lasting.trans ho (Onward.of_eq rfl rfl rfl))

theorem Reached.settled (h : s.Reached past) : s.Settled past := by
  induction h with
  | start sink input clock host =>
    refine ⟨⟨⟨_, rfl, rfl⟩, fun id f hf => ?_, fun id c hc => ?_⟩, rfl, fun n hn => (by cases hn), List.nodup_nil,
      fun v hv => (by cases hv), fun n _ => ?_⟩
    · simp [Machine.initial, Machine.initialHeap, Heap.closure?] at hf
    · simp [Machine.initial, Machine.initialHeap, Heap.class?] at hc
    · simp [Machine.initial, Distances.find?]
  | parse source _ ih => exact ih.draw (nextId_le_parse _ _)
  | run _ hrun ih =>
    rw [run_eq_proceed] at hrun
    obtain ⟨hsettled, hready⟩ := ih.check _
    exact hsettled.proceed hready rfl hrun
  | define name value _ ih => exact ih.onward (Onward.of_heap _ (Heap.Enlarges.define _ _ _ _))
  | exchange sink input clock host _ ih => exact ih.onward (Onward.of_eq rfl rfl rfl)

end Session

end Treewalk
