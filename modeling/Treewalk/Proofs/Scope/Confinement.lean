import Treewalk.Proofs.Machine.Activities
import Treewalk.Proofs.Scope.Agreement
import Treewalk.Proofs.Scope.Jumps

/-!
Breaks and returns of checked programs. Only statements end with such a signal, and only ones that hold a break or a
return that may leave them; so it ends one statement after the other, up to the loop or the call that catches it.
-/

namespace Treewalk

open Resolver

/-- What a signal leaves, if it is a break or a return. -/
def Signal.jump? : Signal → Option Jump
  | .broke => some .loop
  | .returned _ => some .body
  | _ => none

/-! ### Tasks of checked programs -/

variable {known : List Visit} {m : Machine}

theorem Task.Placed.of_asks {steps : Nat} {task t : Task} {n : Machine} (h : task.Placed known m)
    (ha : Asks (fun p => Evaluation.performOver p steps task m) (perform steps) t n) : t.Placed known n := by
  have hsame : ∀ q : Performer, (∀ t n, Task.Placed known n t → q t n = perform steps t n) →
      Evaluation.performOver q steps task m = Evaluation.performOver (perform steps) steps task m :=
    fun q hq => performOver_eq_of_placed (perform_keeps known steps) hq steps h
  exact Treewalk.of_asks hsame ha

theorem Machine.Sound.entered? (hm : m.Sound known) {callee : Value} {arguments : List Value} {e : Entry}
    (he : m.entered? callee arguments = some e) : ∃ around kind r, e.function.routine.Checked known around kind r := by
  rcases Machine.entered?_cases he with ⟨id, f, rfl, hf, -, rfl⟩ | ⟨classId, method, rfl, -, hmethod, rfl⟩
  · obtain ⟨around, kind, r, hchecked, -⟩ := hm.heap.closures id f hf
    exact ⟨around, kind, r, hchecked⟩
  · obtain ⟨around, kind, r, -, hchecked, -⟩ := hm.heap.findMethod? hmethod
    exact ⟨around, kind, r, hchecked⟩

/-- What leaves a branch leaves the statement, unless the statement is the loop that it leaves. -/
theorem Stmt.jumps_of_branch {jump : Jump} {s part : Stmt} (h : part ∈ s.branches) (hpart : part.jumps jump ≠ []) :
    s.jumps jump ≠ [] ∨ jump = .loop ∧ ∃ condition, s = .whileLoop condition part := by
  cases s with
  | ifElse condition yes no =>
    cases no with
    | none =>
      obtain rfl := List.mem_singleton.mp h
      exact Or.inl hpart
    | some no =>
      refine Or.inl fun hnil => ?_
      obtain ⟨hyes, hno⟩ := List.append_eq_nil_iff.mp hnil
      rcases List.mem_cons.mp h with rfl | h
      · exact hpart hyes
      · obtain rfl := List.mem_singleton.mp h
        exact hpart hno
  | whileLoop condition body =>
    obtain rfl := List.mem_singleton.mp h
    cases jump with
    | loop => exact Or.inr ⟨rfl, condition, rfl⟩
    | body => exact Or.inl hpart
  | _ => cases h

/-- Only statements end with a break or a return, and only such as hold one. -/
theorem Task.Placed.jumps_ne_nil {steps : Nat} {task : Task} (h : task.Placed known m) {signal : Signal} {w : Machine}
    {jump : Jump} (hjump : signal.jump? = some jump) (hrun : perform steps task m = .stopped signal w) :
    ∃ s, task = .execute s ∧ s.jumps jump ≠ [] := by
  induction steps generalizing task m w with
  | zero =>
    cases hrun
    cases hjump
  | succ steps ih =>
    rcases perform_origin hrun with hstops | ⟨_, _, _, _, -, -, -, rfl⟩ | ⟨t, n, w', hasks, hc, ht⟩
    · cases hstops with
      | failed _ => cases hjump
      | suspended => cases hjump
      | broke =>
        cases hjump
        exact ⟨_, rfl, by simp [Stmt.jumps]⟩
      | returned =>
        cases hjump
        exact ⟨_, rfl, by simp [Stmt.jumps]⟩
    · cases hjump
    · obtain ⟨part, rfl, hpart⟩ := ih (h.of_asks hasks) ht
      rcases perform_hands SameContext hasks with ⟨hh, -⟩ | ⟨hmem, -⟩ | ⟨he, -, hmem, -⟩
      -- A break in the body of a loop would have been caught, and so would a return in the body of a function.
      · cases hh with
        | branch hbranch =>
          rcases Stmt.jumps_of_branch hbranch hpart with hs | ⟨rfl, condition, rfl⟩
          · exact ⟨_, rfl, hs⟩
          · cases signal with
            | broke => exact absurd .broke hc
            | _ => cases hjump
      · refine ⟨_, rfl, fun hnil => hpart ?_⟩
        exact Stmt.allJumps_eq_nil_iff.mp hnil part hmem
      · obtain ⟨around, kind, r, hchecked⟩ := Machine.Sound.entered? h he
        cases signal with
        | returned value => exact absurd .returned hc
        | broke =>
          -- The body was checked as one outside of all loops, whatever is around the declaration.
          cases hjump
          exact absurd (Stmt.allJumps_eq_nil_iff.mp (Routine.allJumps_eq_nil hchecked.clean) part hmem) hpart
        | _ => cases hjump

theorem Task.Placed.apply {steps line : Nat} {callee : Value} {arguments : List Value} {e : Entry} {signal : Signal}
    {w : Machine} (h : (Task.invoke callee arguments line).Placed known m) (he : m.entered? callee arguments = some e)
    (hd : m.depth < depthLimit)
    (hrun : e.applied steps arguments = .stopped signal w) : signal.jump? = none := by
  have hcall : perform (steps + 1) (.invoke callee arguments line) m = .stopped signal (Entry.leave w) := by
    rw [perform_entered he, if_neg (Nat.not_le.mpr hd), hrun]
    rfl
  refine Option.eq_none_iff_forall_ne_some.mpr fun jump hjump => ?_
  obtain ⟨s, htask, -⟩ := h.jumps_ne_nil hjump hcall
  cases htask

namespace Activity

/-- The activity is a statement that the signal, a break or a return within it, ends. -/
def EndsBy (a : Activity) (signal : Signal) : Prop :=
  ∃ s jump w, a.task = .execute s ∧ signal.jump? = some jump ∧ s.jumps jump ≠ [] ∧ a.outcome = .stopped signal w

/-- The activity is a loop. -/
def IsLoop (a : Activity) : Prop := ∃ condition body, a.task = .execute (.whileLoop condition body)

theorem AsksFor.relay {a b : Activity} {signal : Signal} {w : Machine} (h : a.AsksFor b)
    (hb : b.outcome = .stopped signal w) (hc : ¬a.task.Catches b.task signal) :
    ∃ w', a.outcome = .stopped signal w' := by
  cases h with
  | intro hasks => exact perform_relay hasks hb hc

/-- What catches a break is a loop, and it is over then. -/
theorem AsksFor.broken {a b : Activity} (h : a.AsksFor b) (hb : b.EndsBy .broke)
    (hc : a.task.Catches b.task .broke) :
    ∃ k condition body n w, a = ⟨k, .execute (.whileLoop condition body), n⟩ ∧
      perform k (.execute (.whileLoop condition body)) n = .done () w := by
  obtain ⟨-, -, w, -, -, -, hrun⟩ := hb
  cases h with
  | intro hasks =>
    cases hc with
    | broke => exact ⟨_, _, _, _, w, rfl, perform_broken hasks hrun⟩

/-- What catches a return is a call, and it has the value then. -/
theorem AsksFor.returned {a b : Activity} {value : Value} (h : a.AsksFor b) (hb : b.EndsBy (.returned value))
    (hc : a.task.Catches b.task (.returned value)) :
    ∃ k callee arguments line n e w, a = ⟨k + 1, .invoke callee arguments line, n⟩ ∧
      n.entered? callee arguments = some e ∧ e.applied k arguments = .done value w ∧
      perform (k + 1) (.invoke callee arguments line) n = e.complete (.done value (Entry.leave w)) := by
  obtain ⟨-, -, w, -, -, -, hrun⟩ := hb
  cases h with
  | intro hasks =>
    cases hc with
    | returned =>
      obtain ⟨e, he, hcall, happlied⟩ := perform_returned hasks hrun
      exact ⟨_, _, _, _, _, e, _, rfl, he, happlied, hcall⟩

theorem EndsBy.not_isLoop {a : Activity} (h : a.EndsBy .broke) : ¬a.IsLoop := by
  rintro ⟨condition, body, htask⟩
  obtain ⟨s, jump, w, htask', hjump, hs, -⟩ := h
  cases hjump
  cases htask.symm.trans htask'
  exact hs rfl

end Activity

namespace Machine.Underway

variable {steps : Nat} {program : List Stmt} {a : Activity} {outer : List Activity}

theorem placed {r : Resolver} (h : m.Underway steps program (a :: outer))
    (hready : Stmt.AllReady known [] r program) (hr : r.names = []) (hm : m.Stands known [] []) :
    a.task.Placed known a.machine := by
  generalize hstack : a :: outer = stack at h
  induction h generalizing a outer r with
  | here =>
    cases hstack
    exact ⟨[], r, hready.split.1, hr ▸ hm⟩
  | later hnext _ ih =>
    obtain ⟨hs, hrest, hnames⟩ := hready.split
    exact ih hrest (by rw [hnames, hr, declareIn_nil]) (hm.onward (Machine.next?_onward hs (hr ▸ hm) hnext)) hstack
  | within _ hasks ih =>
    cases hstack
    cases hasks with
    | intro hasks => exact (ih hready hr hm rfl).of_asks hasks

variable {r : Resolver} (hready : Stmt.AllReady known [] r program) (hr : r.names = []) (hm : m.Stands known [] [])
  (hconfines : ∀ jump, r.Confines jump)

include hready hr hm in
/-- What ends with a break or a return is a statement that holds one. -/
theorem endsBy {signal : Signal} {jump : Jump} {w : Machine} (h : m.Underway steps program (a :: outer))
    (hjump : signal.jump? = some jump) (hrun : a.outcome = .stopped signal w) : a.EndsBy signal := by
  obtain ⟨s, htask, hs⟩ := (h.placed hready hr hm).jumps_ne_nil hjump hrun
  exact ⟨s, jump, w, htask, hjump, hs, hrun⟩

include hready hr hm hconfines in
theorem jump?_oldest {signal : Signal} {w : Machine} (h : m.Underway steps program [a])
    (hrun : a.outcome = .stopped signal w) : signal.jump? = none := by
  refine Option.eq_none_iff_forall_ne_some.mpr fun jump hjump => ?_
  obtain ⟨s, hs, htask⟩ := h.oldest
  obtain ⟨s', htask', hne⟩ := (h.placed hready hr hm).jumps_ne_nil hjump hrun
  cases htask.symm.trans htask'
  exact hne (Stmt.allJumps_eq_nil_iff.mp (Stmt.allJumps_eq_nil hready.clean (hconfines jump)) s hs)

include hready hr hm hconfines in
/-- A break or a return ends one statement after the other, up to what catches it. -/
theorem caught {signal : Signal} {jump : Jump} {w : Machine} (h : m.Underway steps program (a :: outer))
    (hjump : signal.jump? = some jump) (hrun : a.outcome = .stopped signal w) :
    ∃ between catcher below last, outer = between ++ catcher :: below ∧ (∀ b ∈ a :: between, b.EndsBy signal) ∧
      catcher.AsksFor last ∧ last.EndsBy signal ∧ catcher.task.Catches last.task signal := by
  induction outer generalizing a w with
  | nil =>
    have hnone := h.jump?_oldest hready hr hm hconfines hrun
    rw [hnone] at hjump
    cases hjump
  | cons b outer ih =>
    obtain ⟨hunder, hasks⟩ := h.asked
    have ha : a.EndsBy signal := h.endsBy hready hr hm hjump hrun
    by_cases hc : b.task.Catches a.task signal
    · exact ⟨[], b, outer, a, rfl, List.forall_mem_singleton.mpr ha, hasks, ha, hc⟩
    · obtain ⟨w', hw'⟩ := hasks.relay hrun hc
      obtain ⟨between, catcher, below, last, heq, hbetween, hrest⟩ := ih hunder hw'
      exact ⟨b :: between, catcher, below, last, congrArg (b :: ·) heq, List.forall_mem_cons.mpr ⟨ha, hbetween⟩, hrest⟩

end Machine.Underway

end Treewalk
