import Treewalk.Proofs.Machine.Output
import Treewalk.Proofs.Machine.Relabeling

/-!
Programs run one behind the other. Where a sink takes everything, it does not matter whether the machine stops between
two programs: running the second one from where the first one ended comes to the same as running both as one, with the
second one at later lines.
-/

namespace Treewalk

theorem Sink.Willing.twin {s s' : Sink} (h : s.Willing) (h' : s'.Willing) (htext : s'.text = s.text) : s.Twin s' :=
  ⟨htext, fun n text => by rw [(h _ text).1, (h' _ text).1], fun n text => by rw [(h _ text).2, (h' _ text).2]⟩

theorem Machine.SameRules.willing {m m' : Machine} (h : m.SameRules m') (hm : m.sink.Willing) : m'.sink.Willing :=
  fun n text => by
    rw [h.2.1, h.2.2]
    exact hm n text

namespace Machine

/-- A program behind one that finished runs from where that one was before it flushed the sink. -/
theorem interpret_append {steps : Nat} {xs : List Stmt} {m last : Machine} (ys : List Stmt)
    (h : interpret steps xs m = (.finished, last)) :
    ∃ next, last = { next with sink := next.sink.flush.1 } ∧
      interpret steps (xs ++ ys) m = interpret steps ys next := by
  induction xs generalizing m with
  | nil =>
    refine ⟨m, ?_, rfl⟩
    rw [interpret] at h
    rcases hflush : m.sink.flush with ⟨sink, _ | reason⟩ <;> rw [hflush] at h
    · exact (Prod.mk.inj h).2.symm
    · cases (Prod.mk.inj h).1
  | cons x xs ih =>
    rw [interpret] at h
    rw [List.cons_append, interpret]
    cases hx : perform steps (.execute x) m with
    | done value next =>
      rw [hx] at h
      exact ih h
    | stopped signal next =>
      rw [hx] at h
      cases signal with
      | failed e => cases (Prod.mk.inj h).1
      | suspended => cases (Prod.mk.inj h).1
      | returned value => exact ih h
      | broke => exact ih h

/-- Running a program changes neither the table nor the rules of the sink. -/
theorem interpret_rules (steps : Nat) (body : List Stmt) (m : Machine) : m.SameRules (interpret steps body m).2 := by
  let bare : Machine := { m with heap := m.heap.relabel .erase, notices := m.notices.map (·.relabel .erase) }
  have hbare : m.Twin ⟨.erase, [], m, bare⟩ bare :=
    ⟨rfl, rfl, rfl, fun _ => rfl, .refl _, rfl, rfl, rfl, rfl, .rfl, .rfl⟩
  exact (twin_interpret steps body hbare).2.rules.1

/-- The two machines hold the same up to lines and offsets, but the second one has some notices more. -/
structure Alike (earlier : List MissingLibrary) (m m' : Machine) : Prop where
  heap : m'.heap.relabel .erase = m.heap.relabel .erase
  text : m'.sink.text = m.sink.text
  notices : m'.notices.map (·.relabel .erase) = (earlier ++ m.notices).map (·.relabel .erase)

/-- Two machines with a common twin that has no lines hold the same up to them. -/
theorem Alike.of_twins {earlier : List MissingLibrary} {m m' e a b c d : Machine}
    (hm : m.Twin ⟨.erase, earlier.map (·.relabel .erase), a, b⟩ e) (hm' : m'.Twin ⟨.erase, [], c, d⟩ e) :
    Alike earlier m m' := by
  refine ⟨hm'.heap.symm.trans hm.heap, hm'.sink.text.symm.trans hm.sink.text, ?_⟩
  rw [List.map_append]
  exact hm'.notices.symm.trans hm.notices

theorem relabelAll_erase_shift (lines bytes : Nat) (body : List Stmt) :
    Stmt.relabelAll .erase (Stmt.relabelAll (.shift 0 lines bytes) body) = Stmt.relabelAll .erase body :=
  Stmt.relabelAll_relabelAll ⟨fun _ => rfl, fun _ => rfl⟩ body fun _ _ => rfl

section Sequences
variable {f : Relabeling} {distances : Distances} {steps : Nat} {xs : List Stmt} {m last : Machine}
  (hnotices : ∀ n : MissingLibrary, n.relabel f = n) (htable : m.distances.Twin f distances)
  (hxs : Stmt.relabelAll f xs = xs) (hheap : m.heap.relabel f = m.heap)
  (hrun : interpret steps xs m = (.finished, last))
include hnotices htable hxs hheap hrun

/-- A table that has the same for the nodes of a program, and that gives up nothing for the nodes in the heap, lets the
program finish as it did. -/
theorem interpret_finished : ∃ last', interpret steps xs { m with distances } = (.finished, last') ∧
    last.Twin ⟨f, [], m, { m with distances }⟩ last' := by
  have hstart : m.Twin ⟨f, [], m, { m with distances }⟩ { m with distances } :=
    ⟨hheap.symm, rfl, rfl, htable, .refl _, rfl, rfl, rfl,
      ((List.map_congr_left fun n _ => hnotices n).trans (List.map_id _)).symm, .rfl, .rfl⟩
  obtain ⟨hending, htwin⟩ := twin_interpret steps xs hstart
  rw [hrun] at hending htwin
  dsimp only at hending htwin
  rw [hxs] at hending htwin
  exact ⟨_, Prod.ext hending rfl, htwin⟩

/-- A second program run from where the first one finished ends as it does at later lines behind the first one. -/
theorem interpret_sequence (hlast : last.heap.relabel f = last.heap) (hsink : m.sink.Willing) (ys : List Stmt)
    (lines bytes : Nat) :
    (interpret steps (xs ++ Stmt.relabelAll (.shift 0 lines bytes) ys) { m with distances }).1.relabel .erase
      = (interpret steps ys { last with distances, notices := [] }).1.relabel .erase ∧
    Alike last.notices (interpret steps ys { last with distances, notices := [] }).2
      (interpret steps (xs ++ Stmt.relabelAll (.shift 0 lines bytes) ys) { m with distances }).2 := by
  obtain ⟨last', hrun', htwin⟩ := interpret_finished hnotices htable hxs hheap hrun
  obtain ⟨next, rfl, happend⟩ := interpret_append (Stmt.relabelAll (.shift 0 lines bytes) ys) hrun'
  have hdistances : next.distances = distances := htwin.rules.2.1
  have hsame : next.notices = last.notices :=
    htwin.notices.trans ((List.map_congr_left fun n _ => hnotices n).trans (List.map_id _))
  have hnext : next.heap = last.heap := htwin.heap.trans hlast
  -- The machine without lines that both of the runs are compared with.
  let bare : Machine := { last with
    heap := last.heap.relabel .erase, distances, notices := last.notices.map (·.relabel .erase) }
  have hapart : Machine.Twin ⟨.erase, last.notices.map (·.relabel .erase), { last with distances, notices := [] }, bare⟩
      { last with distances, notices := [] } bare :=
    ⟨rfl, rfl, rfl, fun _ => rfl, .refl _, rfl, rfl, rfl, (List.append_nil _).symm, .rfl, .rfl⟩
  have hjoined : Machine.Twin ⟨.erase, [], next, bare⟩ next bare := by
    have hwilling : last.sink.Willing := htwin.rules.1.willing hsink
    have hwilling' : next.sink.Willing := htwin.rules.2.willing hsink
    refine ⟨congrArg (·.relabel .erase) hnext.symm, htwin.frame.symm, htwin.depth.symm, fun id => ?_,
      hwilling'.twin hwilling htwin.sink.text.symm, htwin.input.symm, htwin.clock.symm, htwin.host.symm, ?_, .rfl, .rfl⟩
    · rw [hdistances]
      rfl
    · rw [hsame]
      rfl
  obtain ⟨hending, hmachine⟩ := twin_interpret steps ys hapart
  obtain ⟨hending', hmachine'⟩ := twin_interpret steps (Stmt.relabelAll (.shift 0 lines bytes) ys) hjoined
  dsimp only at hending hending' hmachine hmachine'
  rw [relabelAll_erase_shift] at hending' hmachine'
  rw [happend]
  exact ⟨hending'.symm.trans hending, .of_twins hmachine hmachine'⟩

end Sequences

end Machine

end Treewalk
