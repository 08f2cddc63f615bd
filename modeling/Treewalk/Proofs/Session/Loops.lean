import Treewalk.Proofs.Grammar.Loops
import Treewalk.Proofs.Scope.Loops
import Treewalk.Proofs.Session.Identities
import Treewalk.Proofs.Session.Operators

/-!
Loops with three clauses in sessions. Such a loop is read as a tree of blocks and a loop with a condition only. Whenever
the tree runs, it comes to what the loop means directly: the same text and the same outcome, and the same contents of
every frame that there was before and of every instance.
-/

namespace Treewalk

open Grammar Resolver

/-! ### What can be told of a loop that has run -/

/-- The two machines have printed the same and have the same still to read, and all frames of the heap that is given and
all instances have the same contents. -/
structure Machine.SameSince (base : Heap) (m m' : Machine) : Prop where
  frame : m'.frame = m.frame
  depth : m'.depth = m.depth
  sink : m'.sink = m.sink
  input : m'.input = m.input
  clock : m'.clock = m.clock
  host : m'.host = m.host
  notices : m'.notices = m.notices
  frames : ∀ id : FrameId, id.index < base.frames.size → m'.heap.frame? id = m.heap.frame? id
  instances : m'.heap.instances = m.heap.instances

namespace Outcome

variable {α : Type} {R : Machine → Machine → Prop} {o o' : Outcome α}

/-- Both outcomes have the same result or the same signal, and the machines are related. -/
inductive Both (R : Machine → Machine → Prop) : Outcome α → Outcome α → Prop where
  | done (a : α) {m m' : Machine} : R m m' → Both R (.done a m) (.done a m')
  | stopped (signal : Signal) {m m' : Machine} : R m m' → Both R (.stopped signal m) (.stopped signal m')

/-- The run was not suspended. -/
def Ended (o : Outcome α) : Prop := ∀ m, o ≠ .stopped .suspended m

theorem Both.ended (h : o.Both R o') (he : o'.Ended) : o.Ended := by
  cases h with
  | done a _ => nofun
  | stopped signal _ =>
    rintro m ⟨⟩
    exact he _ rfl

theorem Parallel.both {x : Parting} {links : List Link}
    (hR : ∀ more m m', Machine.Parallel x more [] m m' → R m m') (h : o.Parallel x links [] Same o') : o.Both R o' := by
  obtain ⟨a, _, m, m', more, rfl, rfl, -, rfl, hm⟩ | ⟨s, m, m', more, rfl, rfl, -, hm⟩ := h.cases
  · exact .done a (hR more m m' hm)
  · exact .stopped s (hR more m m' hm)

end Outcome

/-- Nothing tells the two machines apart: neither what they hold now, nor what any call comes to. -/
structure Machine.AlikeSince (base : Heap) (m m' : Machine) : Prop where
  now : m.SameSince base m'
  calls : ∀ n callee arguments line, (perform n (.invoke callee arguments line) m).Both (SameSince base)
    (perform n (.invoke callee arguments line) m')

namespace Machine.Parallel

variable {x : Parting} {links : List Link} {m m' : Machine}

theorem sameSince (h : m.Parallel x links [] m') : m.SameSince x.heap m' :=
  ⟨h.frame.1, h.depth, h.sink, h.input, h.clock, h.host, h.notices, h.heap.frames.kept, h.heap.instances⟩

theorem alikeSince (h : m.Parallel x links [] m') : m.AlikeSince x.heap m' :=
  ⟨h.sameSince, fun n callee arguments line =>
    ((parallel_perform x n).invoke callee arguments line links m m' (List.Subset.refl _) h).both
      fun _ _ _ h => h.sameSince⟩

end Machine.Parallel

/-- What the loop comes to on a machine by its direct meaning: it is checked in the given state, which adds its
distances to the table, and then run. -/
def ForLoop.direct (loop : ForLoop) (r : Resolver) (n : Nat) (m : Machine) : Outcome Unit :=
  loop.run (perform n) n { m with distances := loop.table r m.distances }

/-! ### Sessions -/

namespace Session

variable {s : Session} {past : List Visit} {source : List UInt8} {program : List Stmt}

/-- The references of an accepted source differ in their identities. -/
theorem distinct_of_check (h : (s.check source).1 = some program) :
    ∀ x ∈ program, (Tree.stmt x).Everywhere Tree.Distinct := by
  rcases check_cases s source with ⟨n, -, hnone, -⟩ | ⟨statements, n, checked, hderives, -, -, hcases⟩
  · cases hnone.symm.trans h
  · rcases hcases with ⟨hnone, -⟩ | ⟨hsome, -⟩
    · cases hnone.symm.trans h
    · cases hsome.symm.trans h
      intro x hx
      have hspans : Spans s.nextId n (Stmt.allReferences program) := hderives.spans
      have hsub : x.references.Sublist (Stmt.allReferences program) := by
        rw [Tree.allReferences_stmts]
        exact Tree.sublist_flatten hx _
      exact Tree.Distinct.everywhere ((hsub.map _).nodup hspans.nodup)

/-- Identities from the next one on are new to a session. -/
theorem Settled.new (h : s.Settled past) : ForLoop.New (· + s.nextId) past s.machine.distances where
  injective _ _ heq := Nat.add_right_cancel heq
  unrecorded id := h.undrawn _ (Nat.le_add_left s.nextId id)
  unknown v hv id heq := by
    have hdrawn : v.reference.id < s.nextId := h.drawn _ (List.mem_map_of_mem hv)
    have hle : s.nextId ≤ id + s.nextId := Nat.le_add_left s.nextId id
    rw [heq] at hdrawn
    exact Nat.lt_irrefl _ (Nat.lt_of_lt_of_le hdrawn hle)

end Session

/-- What is read behind the keyword of a loop with three clauses, of which any may be missing, is the tree that stands
for the clauses and the body, and the body declares nothing. And in every session, whenever the tree of such a loop is run
in the course of an accepted source, it comes to what the loop means directly. For that, a copy of the loop with
identities of its own is checked, without a fault, in the state in which the check met the tree, and all of it stands in
one scope. Then the initializer runs once, in one new frame, and in that frame test, body and increment follow each other.
If either run ends, so does the other one, with the same signal if there is one. The same was printed, all frames that
there were before and all instances have the same contents, and every call of a value comes to the same after them. -/
theorem loop_tree_means_its_cycle :
    (∀ rules, forStatement rules = ForLoop.tree <$> forClauses rules) ∧
    (∀ depth, Builds (fun loop => loop.body.declared? = none) (forClauses (produce depth))) ∧
    ∀ (s : Session) (past : List Visit) (source : List UInt8) (program : List Stmt) (steps : Nat) (loop : ForLoop)
      (m : Machine), s.Reached past → (s.check source).1 = some program → loop.body.declared? = none →
      (s.check source).2.2.machine.Reaches steps program (.execute loop.tree) m →
      ∃ around r copy, copy = loop.copy (· + (s.check source).2.2.nextId) ∧
        loop.tree.Ready (past ++ s.visits source) around r ∧ m.Stands (past ++ s.visits source) around r.names ∧
        (copy.resolve { r with distances := m.distances }).Clean ∧
        (∀ n, (perform n (.execute loop.tree) m).Ended →
          (perform n (.execute loop.tree) m).Both (Machine.AlikeSince m.heap) (copy.direct r n m)) ∧
        ∀ n, (copy.direct r n m).Ended →
          (perform (n + 4) (.execute loop.tree) m).Both (Machine.AlikeSince m.heap) (copy.direct r n m) := by
  refine ⟨forStatement_eq, builds_forClauses, fun s past source program steps loop m hs hprogram hbody hreach => ?_⟩
  obtain ⟨hsettled, hready⟩ := hs.settled.check source
  obtain ⟨around, r, htree, hm⟩ := hreach.placed (hready program hprogram) rfl hsettled.stands
  obtain ⟨k, below, hunder⟩ := hreach.underway
  have hdistinct : (Tree.stmt loop.tree).Distinct :=
    (hunder.upholds (hs.upholds_check (fun _ _ _ => Session.distinct_of_check) source)
      (Session.distinct_of_check hprogram)).2.here
  have htable : SameTable (s.check source).2.2.machine m := hunder.begins
  have hnew : ForLoop.New (· + (s.check source).2.2.nextId) (past ++ s.visits source) m.distances := by
    rw [htable]
    exact hsettled.new
  have hboth := fun n => (ForLoop.framed_parallel_run htree hbody hm hdistinct hnew n).both fun _ _ _ h => h.alikeSince
  refine ⟨around, r, _, rfl, htree, hm, ?_, fun n hended => ?_, fun n hended => ?_⟩
  · exact ForLoop.clean_direct (ForLoop.shaped_of_tree htree.shaped hbody) htree.clean _ m.distances
  · rcases loop.completes_framed n m with ⟨w, hw⟩ | hw
    · exact absurd hw (hended w)
    · rw [← hw]
      exact hboth n
  · rcases loop.framed_completes n m with ⟨w, hw⟩ | hw
    · exact absurd hw ((hboth n).ended hended w)
    · rw [hw]
      exact hboth n

namespace Shadowing

/-- A loop whose body has a variable of the name that test and increment use. -/
def source : List UInt8 := Text.encode "for (var i = true; i; i = nil) \x7b var i = false; print i; \x7d"

def loop : ForLoop where
  initializer := some (.varDecl (Identity.name "i" 9) (some (.literal (.bool true))))
  condition := some (.var 0 (Identity.name "i" 19))
  increment := some (.assign 2 (Identity.name "i" 22) (.literal .nil))
  body := .block [.varDecl (Identity.name "i" 37) (some (.literal (.bool false))),
    .print (Identity.mark .kwPrint 48) [.var 3 (Identity.name "i" 54)]]

def machine : Machine := { Machine.initial with
  distances := (((Distances.record {} 0 0).record 3 0).record 2 1) }

theorem scan_source : Token.scan source = [Identity.mark .kwFor 0, Identity.mark .leftParen 4, Identity.mark .kwVar 5,
    Identity.name "i" 9, Identity.mark .equal 11, Identity.mark .kwTrue 13, Identity.mark .semicolon 17, Identity.name
    "i" 19, Identity.mark .semicolon 20, Identity.name "i" 22, Identity.mark .equal 24, Identity.mark .kwNil 26,
    Identity.mark .rightParen 29, Identity.mark .leftBrace 31, Identity.mark .kwVar 33, Identity.name "i" 37,
    Identity.mark .equal 39, Identity.mark .kwFalse 41, Identity.mark .semicolon 46, Identity.mark .kwPrint 48,
    Identity.name "i" 54, Identity.mark .semicolon 55, Identity.mark .rightBrace 57, ⟨.finish, "", 1, 58⟩].map .ok :=
    by
  decide +kernel

theorem check_source : (Session.check {} source).1 = some [loop.tree] ∧
    (Session.check {} source).2.2.machine = machine ∧ (Session.check {} source).2.2.nextId = 4 := by
  simp only [Session.check, Session.parse, Program.ofSource, scan_source]
  exact ⟨rfl, rfl, rfl⟩

/-- What was printed by a run that went to its end. -/
def printed? : Outcome Unit → Option String
  | .done _ m => some m.sink.text
  | .stopped _ _ => none

theorem printed_tree : printed? (perform 12 (.execute loop.tree) machine) = some "false\n" := by decide +kernel

theorem ended_of_printed? {o : Outcome Unit} {text : String} (h : printed? o = some text) : o.Ended := by
  rintro m rfl
  cases h

theorem printed?_of_both {o o' : Outcome Unit} {base : Heap} (h : o.Both (Machine.AlikeSince base) o') :
    printed? o' = printed? o := by
  cases h with
  | done _ hm => exact congrArg (fun sink : Sink => some sink.text) hm.now.sink
  | stopped _ _ => rfl

end Shadowing

/-- A loop whose increment means the variable of the loop, and not that of the body. -/
theorem shadowed_variable_ends_loop :
    Session.Reached {} [] ∧ (Session.check {} Shadowing.source).1 = some [Shadowing.loop.tree] ∧
      (Session.check {} Shadowing.source).2.2.machine.Reaches 0 [Shadowing.loop.tree] (.execute Shadowing.loop.tree)
        Shadowing.machine ∧
      Shadowing.printed? (perform 12 (.execute Shadowing.loop.tree) Shadowing.machine) = some "false\n" ∧
      ∃ r, Shadowing.printed? ((Shadowing.loop.copy (· + 4)).direct r 12 Shadowing.machine) = some "false\n" ∧
        (perform 12 (.execute Shadowing.loop.tree) Shadowing.machine).Both (Machine.AlikeSince Shadowing.machine.heap)
          ((Shadowing.loop.copy (· + 4)).direct r 12 Shadowing.machine) := by
  have hs : Session.Reached {} [] := .start {} {} {} []
  obtain ⟨hprogram, hmachine, hnext⟩ := Shadowing.check_source
  have hreach : (Session.check {} Shadowing.source).2.2.machine.Reaches 0 [Shadowing.loop.tree]
      (.execute Shadowing.loop.tree) Shadowing.machine := by
    rw [hmachine]
    exact .here .self
  obtain ⟨-, r, copy, hcopy, -, -, -, hruns, -⟩ :=
    loop_tree_means_its_cycle.2.2 _ _ _ _ _ Shadowing.loop _ hs hprogram rfl hreach
  rw [hnext] at hcopy
  subst hcopy
  have hprinted := Shadowing.printed_tree
  have hboth := hruns 12 (Shadowing.ended_of_printed? hprinted)
  exact ⟨hs, hprogram, hreach, hprinted, r, (Shadowing.printed?_of_both hboth).trans hprinted, hboth⟩

end Treewalk
