import Treewalk.Proofs.Scope.Confinement
import Treewalk.Proofs.Session.References

/-!
Breaks and returns never leave the loop or the function that they belong to, in whichever call, loop or later run that
happens.
-/

namespace Treewalk

open Resolver

/-- In every session, in the course of an accepted source, breaks and returns end nothing but statements that hold them,
and no statement of the source itself; nor does a function that is entered end with one. A break ends statements that are
no loops up to a loop, which is over then, and a return ends statements up to a call, which has the value then. -/
theorem jumps_always_caught {s : Session} {past : List Visit} {source : List UInt8} {program : List Stmt}
    {steps : Nat} {a : Activity} {outer : List Activity} (hs : s.Reached past)
    (hprogram : (s.check source).1 = some program)
    (h : (s.check source).2.2.machine.Underway steps program (a :: outer)) :
    (∀ signal w, a.outcome = .stopped signal w → signal.jump? ≠ none → outer ≠ [] ∧ a.EndsBy signal) ∧
    (∀ k callee arguments line n e, a = ⟨k + 1, .invoke callee arguments line, n⟩ →
      n.entered? callee arguments = some e → n.depth < depthLimit →
      ∀ signal w, e.applied k arguments = .stopped signal w → signal.jump? = none) ∧
    (∀ w, a.outcome = .stopped .broke w →
      ∃ between k condition body n below w',
        outer = between ++ ⟨k, .execute (.whileLoop condition body), n⟩ :: below ∧
        (∀ b ∈ a :: between, b.EndsBy .broke ∧ ¬b.IsLoop) ∧
        perform k (.execute (.whileLoop condition body)) n = .done () w') ∧
    ∀ value w, a.outcome = .stopped (.returned value) w →
      ∃ between k callee arguments line n below e w',
        outer = between ++ ⟨k + 1, .invoke callee arguments line, n⟩ :: below ∧
        (∀ b ∈ a :: between, b.EndsBy (.returned value)) ∧ n.entered? callee arguments = some e ∧
        e.applied k arguments = .done value w' ∧
        perform (k + 1) (.invoke callee arguments line) n = e.complete (.done value (Entry.leave w')) := by
  obtain ⟨hsettled, hready⟩ := hs.settled.check source
  have hready := hready program hprogram
  have hstands := hsettled.stands
  have hconfines : ∀ jump, Confines { distances := s.machine.distances } jump := by
    intro jump
    cases jump <;> rfl
  refine ⟨fun signal w hrun hne => ?_, ?_, fun w hrun => ?_, fun value w hrun => ?_⟩
  · obtain ⟨jump, hjump⟩ := Option.ne_none_iff_exists'.mp hne
    refine ⟨?_, h.endsBy hready rfl hstands hjump hrun⟩
    rintro rfl
    exact hne (h.jump?_oldest hready rfl hstands hconfines hrun)
  · rintro k callee arguments line n e rfl he hd signal w hrun
    exact (h.placed hready rfl hstands).apply he hd hrun
  · obtain ⟨between, catcher, below, last, heq, hbetween, hasks, hlast, hc⟩ :=
      h.caught hready rfl hstands hconfines rfl hrun
    obtain ⟨k, condition, body, n, w', rfl, hdone⟩ := hasks.broken hlast hc
    exact ⟨between, k, condition, body, n, below, w', heq, fun b hb => ⟨hbetween b hb, (hbetween b hb).not_isLoop⟩, hdone⟩
  · obtain ⟨between, catcher, below, last, heq, hbetween, hasks, hlast, hc⟩ :=
      h.caught hready rfl hstands hconfines rfl hrun
    obtain ⟨k, callee, arguments, line, n, e, w', rfl, hcall⟩ := hasks.returned hlast hc
    exact ⟨between, k, callee, arguments, line, n, below, e, w', heq, hbetween, hcall⟩

/-! ### A function with a loop -/

namespace Leaving

open Identity (name mark)

/-- A function with a loop that is left at once, and a call of it. -/
def source : List UInt8 := Text.encode "fun f() \x7b while (true) \x7b break; \x7d \x7d f();"

def leave : Stmt := .breakLoop (mark .kwBreak 25)

def loop : Stmt := .whileLoop (.literal (.bool true)) (.block [leave])

def routine : Routine := ⟨name "f" 4, [], [loop]⟩

def call : Expr := .call (.var 0 (name "f" 36)) (mark .rightParen 38) []

/-- The machine behind the declaration. -/
def declared : Machine := { Machine.initial with
  heap := (Machine.initialHeap.addClosure ⟨routine, globalFrame, false⟩).2.define globalFrame "f" (.closure ⟨0⟩) }

/-- The machine within the call. -/
def called : Machine := { declared with depth := 1 }.calling ⟨routine, globalFrame, false⟩ []

theorem scan_source : Token.scan source = [mark .kwFun 0, name "f" 4, mark .leftParen 5, mark .rightParen 6,
    mark .leftBrace 8, mark .kwWhile 10, mark .leftParen 16, mark .kwTrue 17, mark .rightParen 21, mark .leftBrace 23,
    mark .kwBreak 25, mark .semicolon 30, mark .rightBrace 32, mark .rightBrace 34, name "f" 36, mark .leftParen 37,
    mark .rightParen 38, mark .semicolon 39, ⟨.finish, "", 1, 40⟩].map .ok := by
  decide +kernel

theorem check_source : (Session.check {} source).1 = some [.function routine, .expression call] ∧
    (Session.check {} source).2.2.machine = Machine.initial := by
  simp only [Session.check, Session.parse, Program.ofSource, scan_source]
  exact ⟨rfl, rfl⟩

theorem execute_loop (m : Machine) : perform 3 (.execute loop) m = .done () (m.inBlock.inFrame m.frame) := rfl

theorem loop_asks (m : Machine) : Activity.AsksFor ⟨3, .execute loop, m⟩ ⟨2, .execute (.block [leave]), m⟩ := by
  refine .intro (asks_of_suspended (fun n h => ?_) fun q hq hsuspended => ⟨m, ?_⟩)
  · cases (execute_loop m).symm.trans h
  · have hcondition : q (.evaluate (.literal (.bool true))) m = .done (.bool true) m := hq _ _ (by simp)
    refine (Run.repeatWhile_succ (q (.evaluate (.literal (.bool true)))) (q (.execute (.block [leave]))) 1 m).trans ?_
    rw [hcondition]
    exact congrArg (Run.afterBody _) hsuspended

theorem underway : Machine.initial.Underway 6 [.function routine, .expression call]
    [⟨1, .execute leave, called.inBlock⟩, ⟨2, .execute (.block [leave]), called⟩, ⟨3, .execute loop, called⟩,
      ⟨4, .invoke (.closure ⟨0⟩) [] 1, declared⟩, ⟨5, .evaluate call, declared⟩,
      ⟨6, .execute (.expression call), declared⟩] := by
  have hnext : Machine.initial.next? 6 (.function routine) = some declared := rfl
  have hcall : Machine.initial.Underway 6 [.function routine, .expression call]
      [⟨4, .invoke (.closure ⟨0⟩) [] 1, declared⟩, ⟨5, .evaluate call, declared⟩,
        ⟨6, .execute (.expression call), declared⟩] := .later hnext (.ofCall rfl)
  have he : declared.entered? (.closure ⟨0⟩) [] = some ⟨⟨routine, globalFrame, false⟩, declared, none⟩ := rfl
  exact ((hcall.within (Activity.asksFor_entered he (by decide) rfl)).within (loop_asks called)).within
    Activity.asksFor_block

end Leaving

/-- The break in a loop of a function ends the block around it and then the loop. -/
theorem break_within_call_caught :
    Session.Reached {} [] ∧
      (Session.check {} Leaving.source).1 = some [.function Leaving.routine, .expression Leaving.call] ∧
      perform 1 (.execute Leaving.leave) Leaving.called.inBlock = .stopped .broke Leaving.called.inBlock ∧
      ∃ between k condition body n below w,
        [⟨2, .execute (.block [Leaving.leave]), Leaving.called⟩, ⟨3, .execute Leaving.loop, Leaving.called⟩,
          ⟨4, .invoke (.closure ⟨0⟩) [] 1, Leaving.declared⟩, ⟨5, .evaluate Leaving.call, Leaving.declared⟩,
          ⟨6, .execute (.expression Leaving.call), Leaving.declared⟩] =
            between ++ (⟨k, .execute (.whileLoop condition body), n⟩ : Activity) :: below ∧
        (∀ b ∈ between, b.EndsBy .broke ∧ ¬b.IsLoop) ∧
        perform k (.execute (.whileLoop condition body)) n = .done () w := by
  have hs : Session.Reached {} [] := .start {} {} {} []
  obtain ⟨hprogram, hmachine⟩ := Leaving.check_source
  have hunder := Leaving.underway
  rw [← hmachine] at hunder
  obtain ⟨-, -, hbreak, -⟩ := jumps_always_caught hs hprogram hunder
  obtain ⟨between, k, condition, body, n, below, w, heq, hbetween, hdone⟩ := hbreak Leaving.called.inBlock rfl
  exact ⟨hs, hprogram, rfl, between, k, condition, body, n, below, w, heq,
    fun b hb => hbetween b (List.mem_cons_of_mem _ hb), hdone⟩

end Treewalk
