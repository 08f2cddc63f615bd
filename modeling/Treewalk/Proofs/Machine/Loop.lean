import Treewalk.Grammar.Statement
import Treewalk.Proofs.Machine.Durability
import Treewalk.Proofs.Machine.Parallel
import Treewalk.Proofs.Machine.Steps

/-!
Loops with three clauses. What such a loop means is said directly, by a cycle of test, body and increment in one frame.
What runs is the tree that stands for it, with a frame around the loop if there is an initializer and one around each
round if there is an increment. The tree and the direct loop come to the same from machines alike.
-/

namespace Treewalk

/-- A loop with three clauses, of which each may be missing. -/
structure ForLoop where
  initializer : Option Stmt
  condition : Option Expr
  increment : Option Expr
  body : Stmt

namespace Run

/-- Tests, runs the body and then the increment, in turn, for at most the given number of rounds. A break from the body
ends the cycle, without the increment; any other signal stops it at once. -/
def cycle (test : Run Bool) (body increment : Run Unit) : Nat → Run Unit
  | 0 => stop .suspended
  | rounds + 1 => fun m =>
    match test m with
    | .stopped s m => .stopped s m
    | .done false m => .done () m
    | .done true m =>
      match body m with
      | .stopped .broke m => .done () m
      | .stopped s m => .stopped s m
      | .done _ m =>
        match increment m with
        | .stopped s m => .stopped s m
        | .done _ m => cycle test body increment rounds m

/-- Where no increment breaks, body and increment are one body. -/
theorem cycle_eq_repeatWhile {test : Run Bool} {body increment : Run Unit} (I : Machine → Prop)
    (htest : ∀ m b n, I m → test m = .done b n → I n) (hbody : ∀ m n, I m → body m = .done () n → I n)
    (hincrement : ∀ m, I m → (∀ n, increment m = .done () n → I n) ∧ ∀ n, increment m ≠ .stopped .broke n)
    (rounds : Nat) {m : Machine} (hm : I m) :
    cycle test body increment rounds m = repeatWhile test (body >>= fun _ => increment) rounds m := by
  induction rounds generalizing m with
  | zero => rfl
  | succ rounds ih =>
    unfold cycle repeatWhile
    cases ht : test m with
    | stopped s n => rfl
    | done again n =>
      cases again with
      | false => rfl
      | true =>
        have hn := htest m true n hm ht
        dsimp only
        cases hb : body n with
        | stopped s q =>
          rw [bind_of_stopped hb]
          cases s <;> rfl
        | done _ q =>
          rw [bind_of_done hb]
          obtain ⟨hkeep, hbreak⟩ := hincrement q (hbody n q hn hb)
          dsimp only
          cases hi : increment q with
          | done _ w => exact ih (hkeep w hi)
          | stopped s w =>
            cases s with
            | broke => exact absurd hi (hbreak w)
            | failed e => rfl
            | returned value => rfl
            | suspended => rfl

end Run

namespace ForLoop

open Evaluation

/-- The tree that stands for the loop. -/
def tree (loop : ForLoop) : Stmt :=
  Grammar.loopTree loop.initializer (loop.condition.getD (.literal (.bool true))) loop.increment loop.body

/-- The body of the loop in the tree. -/
def roundTree (loop : ForLoop) : Stmt :=
  match loop.increment with
  | some e => .block [loop.body, .expression e]
  | none => loop.body

/-- The loop in the tree. -/
def whileTree (loop : ForLoop) : Stmt :=
  .whileLoop (loop.condition.getD (.literal (.bool true))) loop.roundTree

theorem tree_eq (loop : ForLoop) :
    loop.tree =
      match loop.initializer with
      | some s => .block [s, loop.whileTree]
      | none => loop.whileTree := rfl

variable (p : Performer) (loop : ForLoop)

/-- Runs the initializer. -/
def start : Run Unit :=
  match loop.initializer with
  | some s => execute p s
  | none => pure ()

/-- Tests the condition, which holds if there is none. -/
def test : Run Bool :=
  match loop.condition with
  | some e => Value.truthy <$> evaluate p e
  | none => pure true

/-- Evaluates the increment. -/
def advance : Run Unit :=
  match loop.increment with
  | some e => discard (evaluate p e)
  | none => pure ()

/-- What the loop means. The initializer runs once in a new frame, and in that frame test, body and increment follow
each other. -/
def run (rounds : Nat) : Run Unit := Run.inScope do
  loop.start p
  Run.cycle (loop.test p) (execute p loop.body) (loop.advance p) rounds

/-- A round as the tree has it. -/
def round : Run Unit :=
  match loop.increment with
  | some _ => Run.inScope do
    execute p loop.body
    loop.advance p
  | none => execute p loop.body

/-- The loop with the frames that the tree has for it. -/
def framed (rounds : Nat) : Run Unit :=
  match loop.initializer with
  | some _ => Run.inScope do
    loop.start p
    Run.repeatWhile (loop.test p) (loop.round p) rounds
  | none => Run.repeatWhile (loop.test p) (loop.round p) rounds

end ForLoop

/-! ### Steps for the tree -/

theorem Run.bind_nothing (r : Run Unit) : (r >>= fun _ => pure ()) = r := by
  funext m
  show Run.bind r _ m = r m
  unfold Run.bind
  cases r m with
  | done a n => rfl
  | stopped s n => rfl

theorem Run.Completes.trans {α : Type} {r r' r'' : Run α} (h : r.Completes r') (h' : r'.Completes r'') :
    r.Completes r'' := by
  intro m
  rcases h m with hm | hm
  · exact Or.inl hm
  · rw [← hm]
    exact h' m

theorem Run.Completes.inScope {α : Type} {r r' : Run α} (h : r.Completes r') :
    (Run.inScope r).Completes (Run.inScope r') :=
  (Run.Completes.refl _).bind fun _ => (Run.Completes.refl _).bind fun inner => h.inFrame inner

namespace Evaluation

/-- A block of two statements. -/
theorem block_pair (p : Performer) (s t : Stmt) :
    block p [s, t] = Run.inScope (execute p s >>= fun _ => execute p t) := by
  have hlast : (execute p t >>= fun _ => executeAll p []) = execute p t := Run.bind_nothing _
  show Run.inScope (executeAll p [s, t]) = _
  rw [executeAll_cons, executeAll_cons, hlast]

/-- What a statement comes to with a grant of steps, it comes to when it is taken apart and its parts get that grant. -/
theorem completes_parts (n : Nat) (s : Stmt) :
    Run.Completes (perform n (.execute s)) (execution (perform n) n s) :=
  completes_perform (Nat.le_succ n) (.execute s)

end Evaluation

namespace ForLoop

open Evaluation

variable (loop : ForLoop) {n k : Nat}

theorem completes_test (n : Nat) :
    Run.Completes (Value.truthy <$> evaluate (perform n) (loop.condition.getD (.literal (.bool true))))
      (loop.test (perform n)) := by
  unfold test
  cases loop.condition with
  | some e => exact .refl _
  | none => exact Run.Completes.map (completes_perform (Nat.le_succ n) (.evaluate (.literal (.bool true)))) _

theorem test_completes (h : n ≤ k) :
    (loop.test (perform n)).Completes
      (Value.truthy <$> evaluate (perform (k + 1)) (loop.condition.getD (.literal (.bool true)))) := by
  unfold test
  cases loop.condition with
  | some e => exact Run.Completes.map (completes_perform (Nat.le_succ_of_le h) (.evaluate e)) _
  | none => exact .refl _

theorem completes_round (n : Nat) : (execute (perform n) loop.roundTree).Completes (loop.round (perform n)) := by
  unfold round roundTree advance
  cases loop.increment with
  | none => exact .refl _
  | some e =>
    refine Run.Completes.trans (completes_parts n _) ?_
    show (block (perform n) [loop.body, .expression e]).Completes _
    rw [block_pair]
    exact ((Run.Completes.refl _).bind fun _ => completes_parts n (.expression e)).inScope

theorem round_completes (n : Nat) : (loop.round (perform n)).Completes (execute (perform (n + 2)) loop.roundTree) := by
  unfold round roundTree advance
  cases loop.increment with
  | none => exact completes_perform (Nat.le_add_right n 2) (.execute loop.body)
  | some e =>
    show Run.Completes _ (block (perform (n + 1)) [loop.body, .expression e])
    rw [block_pair]
    exact (Run.Completes.bind (completes_perform (Nat.le_succ n) (.execute loop.body)) fun _ => .refl _).inScope

/-- What the tree comes to, the loop with its frames comes to. -/
theorem completes_framed (n : Nat) : Run.Completes (perform n (.execute loop.tree)) (loop.framed (perform n) n) := by
  have hwhile : (execute (perform n) loop.whileTree).Completes
      (Run.repeatWhile (loop.test (perform n)) (loop.round (perform n)) n) :=
    Run.Completes.trans (completes_parts n _)
      (.repeatWhile (loop.completes_test n) (loop.completes_round n) (Nat.le_refl n))
  rw [tree_eq]
  unfold framed start
  cases loop.initializer with
  | none => exact hwhile
  | some s =>
    refine Run.Completes.trans (completes_parts n _) ?_
    show (block (perform n) [s, loop.whileTree]).Completes _
    rw [block_pair]
    exact ((Run.Completes.refl _).bind fun _ => hwhile).inScope

/-- What the loop with its frames comes to, the tree comes to with some more steps. -/
theorem framed_completes (n : Nat) :
    (loop.framed (perform n) n).Completes (perform (n + 4) (.execute loop.tree)) := by
  have hwhile : (Run.repeatWhile (loop.test (perform n)) (loop.round (perform n)) n).Completes
      (execute (perform (n + 3)) loop.whileTree) :=
    .repeatWhile (loop.test_completes (Nat.le_succ n)) (loop.round_completes n) (Nat.le_add_right n 2)
  rw [tree_eq]
  unfold framed start
  cases loop.initializer with
  | none => exact Run.Completes.trans hwhile (completes_perform (Nat.le_succ _) (.execute loop.whileTree))
  | some s =>
    show Run.Completes _ (block (perform (n + 3)) [s, loop.whileTree])
    rw [block_pair]
    exact (Run.Completes.bind (completes_perform (Nat.le_add_right n 3) (.execute s)) fun _ => hwhile).inScope

end ForLoop

/-! ### Frames in one run only -/

theorem Outcome.onMachine_of_frame {α : Type} {o : Outcome α} {frame : FrameId} (h : o.machine.frame = frame) :
    o.onMachine (.inFrame frame) = o := by
  subst h
  cases o with
  | done a m => rfl
  | stopped s m => rfl

namespace Run

variable {α β : Type} {r : Run α} {r' : Run β}

/-- The run ends in the frame in which it begins. -/
def Returns (r : Run α) : Prop := ∀ m, (r m).machine.frame = m.frame

theorem inScope_eq (r : Run α) (m : Machine) :
    inScope r m = (r m.inBlock).onMachine (.inFrame m.frame) :=
  inFrame_eq _ r { m with heap := (m.heap.addChild m.frame).2 }

namespace Parallel

variable {x : Parting} {links : List Link} {layers : Layers} {V : List Link → α → β → Prop}

/-- The first run may have a frame for itself. -/
theorem inScope_left (h : Parallel x links (.first :: layers) V r r') (hr : r'.Returns) :
    Parallel x links layers V (Run.inScope r) r' := by
  intro more m m' hsub hm
  obtain ⟨most, hmost, hheap, hframe⟩ := hm.heap.addFirst hm.frame
  have hrun := h most m.inBlock m' (List.Subset.trans hsub hmost) { hm with heap := hheap, frame := hframe }
  rw [inScope_eq, ← Outcome.onMachine_of_frame (hr m')]
  exact (hrun.inFrame (hm.frame.mono hmost)).weaken hmost

/-- The second run may have a frame for itself. -/
theorem inScope_right (h : Parallel x links (.second :: layers) V r r') (hr : r.Returns) :
    Parallel x links layers V r (Run.inScope r') := by
  intro more m m' hsub hm
  obtain ⟨most, hmost, hheap, hframe⟩ := hm.heap.addSecond hm.frame
  have hrun := h most m m'.inBlock (List.Subset.trans hsub hmost) { hm with heap := hheap, frame := hframe }
  rw [inScope_eq, ← Outcome.onMachine_of_frame (hr m)]
  exact (hrun.inFrame (hm.frame.mono hmost)).weaken hmost

end Parallel

end Run

namespace Run.Returns

variable {α β : Type} {r : Run α}

theorem pure (a : α) : Returns (Pure.pure a) := fun _ => rfl

theorem bind {k : α → Run β} (h : r.Returns) (hk : ∀ a, (k a).Returns) : (r >>= k).Returns := by
  intro m
  have hm := h m
  cases hr : r m with
  | stopped s n =>
    rw [hr] at hm
    rw [bind_of_stopped hr]
    exact hm
  | done a n =>
    rw [hr] at hm
    rw [bind_of_done hr]
    exact (hk a n).trans hm

theorem discard (h : r.Returns) : Returns (Functor.discard r) := h.bind fun _ => pure _

theorem inScope (r : Run α) : (Run.inScope r).Returns := by
  intro m
  rw [inScope_eq]
  cases r m.inBlock with
  | done a n => rfl
  | stopped s n => rfl

theorem repeatWhile {test : Run Bool} {body : Run Unit} (ht : test.Returns) (hb : body.Returns) (rounds : Nat) :
    (Run.repeatWhile test body rounds).Returns := by
  induction rounds with
  | zero => exact fun _ => rfl
  | succ rounds ih =>
    intro m
    have hm := ht m
    unfold Run.repeatWhile
    cases hr : test m with
    | stopped s n =>
      rw [hr] at hm
      exact hm
    | done again n =>
      rw [hr] at hm
      cases again with
      | false => exact hm
      | true =>
        have hn := hb n
        dsimp only
        cases hbody : body n with
        | done _ q =>
          rw [hbody] at hn
          exact ((ih q).trans hn).trans hm
        | stopped s q =>
          rw [hbody] at hn
          cases s <;> exact hn.trans hm

theorem perform (steps : Nat) (task : Task) : Returns (Treewalk.perform steps task) := fun m =>
  (perform_durable SameContext steps task m).frame

end Run.Returns

namespace ForLoop

open Evaluation

variable (loop : ForLoop) (n : Nat)

theorem returns_test : (loop.test (perform n)).Returns := by
  unfold test
  cases loop.condition with
  | none => exact .pure true
  | some e => exact (Run.Returns.perform n (.evaluate e)).bind fun _ => .pure _

theorem returns_advance : (loop.advance (perform n)).Returns := by
  unfold advance
  cases loop.increment with
  | none => exact .pure ()
  | some e => exact (Run.Returns.perform n (.evaluate e)).discard

theorem returns_round : (loop.round (perform n)).Returns := by
  unfold round
  cases loop.increment with
  | none => exact .perform n (.execute loop.body)
  | some e => exact .inScope _

end ForLoop

/-! ### The loop and its counterpart -/

namespace ForLoop

/-- The layers around the clauses of the loop: where there is an initializer, both runs have a frame for them. -/
def header (loop : ForLoop) (layers : Layers) : Layers :=
  match loop.initializer with
  | some _ => .shared :: layers
  | none => .second :: layers

/-- The layers around a round. -/
def inner (loop : ForLoop) (layers : Layers) : Layers :=
  match loop.increment with
  | some _ => .first :: loop.header layers
  | none => loop.header layers

/-- The clauses of the second loop are the counterparts of those of the first one. -/
structure Matches (d d' : Distances) (layers : Layers) (loop loop' : ForLoop) : Prop where
  initializer : Option.Rel (Stmt.Matches d d' (loop.header layers)) loop.initializer loop'.initializer
  condition : Option.Rel (Expr.Matches d d' (loop.header layers)) loop.condition loop'.condition
  body : Stmt.Matches d d' (loop.inner layers) loop.body loop'.body
  increment : Option.Rel (Expr.Matches d d' (loop.inner layers)) loop.increment loop'.increment

open Evaluation

variable {x : Parting} {links : List Link} {layers : Layers} {loop loop' : ForLoop} {n : Nat}

/-- The loop with body and increment as one body. -/
def merged (p : Performer) (loop : ForLoop) (rounds : Nat) : Run Unit := Run.inScope do
  loop.start p
  Run.repeatWhile (loop.test p) (do execute p loop.body; loop.advance p) rounds

namespace Matches

variable (h : Matches x.table x.table' layers loop loop')
include h

theorem parallel_test (n : Nat) :
    Run.Parallel x links (loop.header layers) Same (loop.test (perform n)) (loop'.test (perform n)) := by
  unfold test
  obtain ⟨hc, hc'⟩ | ⟨e, e', hc, hc', he⟩ := rel_cases h.condition
  · rw [hc, hc']
    exact .same true
  · rw [hc, hc']
    exact ((parallel_perform x n).evaluate he).mapSame _

theorem parallel_round (n : Nat) :
    Run.Parallel x links (loop.header layers) Same (loop.round (perform n))
      (do execute (perform n) loop'.body; loop'.advance (perform n)) := by
  have hbody := h.body
  have hincrement := h.increment
  unfold round
  unfold inner at hbody hincrement
  obtain ⟨hi, hi'⟩ | ⟨e, e', hi, hi', -⟩ := rel_cases h.increment
  · unfold advance
    rw [hi] at hbody ⊢
    rw [hi']
    dsimp only
    rw [Run.bind_nothing]
    exact (parallel_perform x n).execute hbody
  · -- The frame around the round is in the first run only.
    have hreturns : (do execute (perform n) loop'.body; loop'.advance (perform n) : Run Unit).Returns :=
      (Run.Returns.perform n (.execute loop'.body)).bind fun _ => loop'.returns_advance n
    unfold advance at hreturns ⊢
    rw [hi, hi'] at hincrement
    rw [hi] at hbody ⊢
    rw [hi'] at hreturns ⊢
    cases hincrement with
    | some he =>
      refine Run.Parallel.inScope_left ?_ hreturns
      exact ((parallel_perform x n).execute hbody).bindSame fun _ _ _ => ((parallel_perform x n).evaluate he).discard

/-- The loop with the frames that the tree has, and the loop with the one frame that it means, come to the same. -/
theorem parallel_framed (n : Nat) :
    Run.Parallel x links layers Same (loop.framed (perform n) n) (loop'.merged (perform n) n) := by
  have hwhile : ∀ links, Run.Parallel x links (loop.header layers) Same
      (Run.repeatWhile (loop.test (perform n)) (loop.round (perform n)) n)
      (Run.repeatWhile (loop'.test (perform n)) (do execute (perform n) loop'.body; loop'.advance (perform n)) n) :=
    fun links => .repeatWhile (h.parallel_test n) (h.parallel_round n) n
  have hinitializer := h.initializer
  unfold framed merged start
  unfold header at hwhile hinitializer
  obtain ⟨hi, hi'⟩ | ⟨s, s', hi, hi', -⟩ := rel_cases h.initializer
  · rw [hi] at hwhile ⊢
    rw [hi']
    exact (hwhile links).inScope_right (.repeatWhile (loop.returns_test n) (loop.returns_round n) n)
  · rw [hi, hi'] at hinitializer
    rw [hi] at hwhile ⊢
    rw [hi']
    cases hinitializer with
    | some hs => exact (((parallel_perform x n).execute hs).bindSame fun more _ _ => hwhile more).inScope

end Matches

end ForLoop

end Treewalk
