import Treewalk.Proofs.Grammar.Acceptance
import Treewalk.Proofs.Grammar.Forms
import Treewalk.Proofs.Machine.Phrases
import Treewalk.Proofs.Scope.Confinement
import Treewalk.Proofs.Session.References

/-!
Operators and parameters in sessions. Whatever runs was read, and what is read is well-formed; so no run ever meets an
operator that it does not know. And a function that is entered begins with each of its parameters bound to the argument
in its place, since the check refuses two parameters with one name.
-/

namespace Treewalk

open Grammar Resolver

/-! ### Faults of operators -/

/-- The text begins with the words. -/
def Text.Opens (words text : String) : Prop := words.toList <+: text.toList

namespace Text.Opens

variable {word start text : String}

instance : Decidable (Opens word text) := inferInstanceAs (Decidable (_ <+: _))

theorem self (word : String) : Opens word word := List.prefix_refl _

theorem append (h : Opens word text) (rest : String) : Opens word (text ++ rest) := by
  unfold Opens
  rw [String.toList_append]
  exact h.trans (List.prefix_append _ _)

/-- Of two beginnings of a text, one begins with the other. -/
theorem differ (h : Opens start text) (hne : ¬Opens word start ∧ ¬Opens start word) :
    ¬Opens word text := fun hword => (List.prefix_or_prefix_of_prefix hword h).elim hne.1 hne.2

end Text.Opens

open Text in
/-- Only what a host function says may read like the fault of an unknown operator. -/
theorem RuntimeFault.opens_invalid {fault : RuntimeFault} (h : Opens "Invalid" fault.message) :
    (∃ lexeme, fault = .invalidUnary lexeme) ∨ (∃ lexeme, fault = .invalidBinary lexeme) ∨
      ∃ text, fault = .native (.host text) := by
  have differ : ∀ {start text : String}, Opens start text →
      ¬Opens "Invalid" start ∧ ¬Opens start "Invalid" → Opens "Invalid" text → False :=
    fun hstart hne => hstart.differ hne
  cases fault with
  | invalidUnary lexeme => exact Or.inl ⟨lexeme, rfl⟩
  | invalidBinary lexeme => exact Or.inr (Or.inl ⟨lexeme, rfl⟩)
  | undefinedVariable name => exact (differ (((Opens.self _).append _).append _) (by decide) h).elim
  | undefinedProperty name => exact (differ (((Opens.self _).append _).append _) (by decide) h).elim
  | notArray name => exact (differ (((Opens.self _).append _).append _) (by decide) h).elim
  | indexOutOfBounds position length =>
    exact (differ (((((Opens.self _).append _).append _).append _).append _) (by decide) h).elim
  | wrongArity expected got =>
    exact (differ (((((Opens.self _).append _).append _).append _).append _) (by decide) h).elim
  | unwritable reason => exact (differ ((Opens.self _).append _) (by decide) h).elim
  | native fault =>
    cases fault with
    | host text => exact Or.inr (Or.inr ⟨text, rfl⟩)
    | missing i f =>
      exact (differ (((((Opens.self _).append _).append _).append _).append _) (by decide) h).elim
    | notNumber i f type =>
      exact (differ (((((((Opens.self _).append _).append _).append _).append _).append _).append _)
        (by decide) h).elim
    | notString i f type =>
      exact (differ (((((((Opens.self _).append _).append _).append _).append _).append _).append _)
        (by decide) h).elim
    | notMeasurable type => exact (differ (((Opens.self _).append _).append _) (by decide) h).elim
    | substringRange start finish length =>
      exact (differ (((((((Opens.self _).append _).append _).append _).append _).append _).append _)
        (by decide) h).elim
    | unreadable reason => exact (differ ((Opens.self _).append _) (by decide) h).elim
  | _ => exact absurd h (by decide)

/-- The fault is not that of an unknown operator, nor does it read like one, unless a host function says so. -/
structure RuntimeFault.KnowsOperators (fault : RuntimeFault) : Prop where
  unary : ∀ lexeme, fault ≠ .invalidUnary lexeme
  binary : ∀ lexeme, fault ≠ .invalidBinary lexeme
  message : Text.Opens "Invalid" fault.message → ∃ text, fault = .native (.host text)

/-- Tasks with well-formed phrases know their operators. -/
theorem Task.Faults.knowsOperators {task : Task} {fault : RuntimeFault} (h : task.Faults fault)
    (ht : task.Upholds Tree.WellFormed) : fault.KnowsOperators := by
  have hunary : ∀ lexeme, fault ≠ .invalidUnary lexeme := by
    rintro lexeme rfl
    obtain ⟨operator, right, rfl, hoperator⟩ := h
    exact hoperator ht.here
  have hbinary : ∀ lexeme, fault ≠ .invalidBinary lexeme := by
    rintro lexeme rfl
    obtain ⟨left, operator, right, rfl, hoperator⟩ := h
    exact hoperator ht.here
  refine ⟨hunary, hbinary, fun hopens => ?_⟩
  rcases RuntimeFault.opens_invalid hopens with ⟨lexeme, heq⟩ | ⟨lexeme, heq⟩ | hhost
  · exact absurd heq (hunary lexeme)
  · exact absurd heq (hbinary lexeme)
  · exact hhost

theorem RuntimeFault.knowsOperators_tooDeep : RuntimeFault.tooDeep.KnowsOperators :=
  ⟨nofun, nofun, fun h => absurd h (by decide)⟩

theorem perform_knowsOperators {steps : Nat} {task : Task} {m w : Machine} {error : RuntimeError}
    (hm : m.heap.Upholds Tree.WellFormed) (ht : task.Upholds Tree.WellFormed)
    (h : perform steps task m = .stopped (.failed error) w) : error.fault.KnowsOperators := by
  rcases perform_fault hm ht h with heq | ⟨t, ht, hfaults⟩
  · rw [heq]
    exact RuntimeFault.knowsOperators_tooDeep
  · exact hfaults.knowsOperators ht

/-! ### Parameters -/

namespace Resolver

theorem Clean.not_declared {r : Resolver} {token : Token} {scope : List String} {outer : List (List String)}
    (h : (r.declare token).Clean) (hr : r.names = scope :: outer) : token.lexeme ∉ scope := by
  intro hmem
  cases hscopes : r.scopes with
  | nil => simp [names, hscopes] at hr
  | cons inner rest =>
    have hnames : r.names = inner.map (·.token.lexeme) :: rest.map (·.map (·.token.lexeme)) := by
      rw [names, hscopes, List.map_cons]
    obtain ⟨rfl, -⟩ := List.cons.inj (hr.symm.trans hnames)
    have hfound : (Scope.find? inner token.lexeme).isSome = true := by
      rw [find?_isSome]
      exact decide_eq_true hmem
    unfold declare at h
    rw [hscopes] at h
    simp only [if_pos hfound] at h
    exact h.not_refuse (Level.refl _)

/-- Names that are introduced without a fault differ from each other and from those in their scope. -/
theorem Clean.distinct {params : List Token} {r : Resolver} {scope : List String} {outer : List (List String)}
    (h : (params.foldl introduce r).Clean) (hr : r.names = scope :: outer) :
    (params.map (·.lexeme)).Nodup ∧ ∀ p ∈ params, p.lexeme ∉ scope := by
  induction params generalizing r scope with
  | nil => exact ⟨List.nodup_nil, nofun⟩
  | cons p rest ih =>
    have hfirst : (r.introduce p).Clean := h.of_findings (Level.introduceAll rest _).findings
    have hnew : p.lexeme ∉ scope := (hfirst.of_findings (Level.define _ p).findings : (r.declare p).Clean).not_declared hr
    have hnames : (r.introduce p).names = (scope ++ [p.lexeme]) :: outer := by
      rw [names_introduce, hr, declareName, if_neg hnew]
    obtain ⟨hnodup, hrest⟩ := ih h hnames
    have hdiffer : ∀ q ∈ rest, q.lexeme ≠ p.lexeme ∧ q.lexeme ∉ scope := fun q hq =>
      ⟨fun heq => hrest q hq (by simp [heq]), fun hmem => hrest q hq (List.mem_append_left _ hmem)⟩
    refine ⟨?_, List.forall_mem_cons.mpr ⟨hnew, fun q hq => (hdiffer q hq).2⟩⟩
    rw [List.map_cons, List.nodup_cons]
    refine ⟨fun hmem => ?_, hnodup⟩
    obtain ⟨q, hq, heq⟩ := List.mem_map.mp hmem
    exact (hdiffer q hq).1 heq

end Resolver

/-- The parameters of a routine that was checked without a fault have different names. -/
theorem Routine.Checked.distinct {known : List Visit} {around : List Initializing} {kind : Enclosing} {r : Resolver}
    {routine : Routine} (h : routine.Checked known around kind r) : (routine.params.map (·.lexeme)).Nodup := by
  obtain ⟨name, params, body⟩ := routine
  have hbody := (h.clean.of_findings (Level.closeScope _).findings : (Stmt.resolveAll body (r.enter kind params)).Clean)
  have hparams : (r.enter kind params).Clean := hbody.of_findings (Stmt.allLevel body _).findings
  exact (Clean.distinct hparams rfl).1

theorem Machine.entered?_arity {m : Machine} {callee : Value} {arguments : List Value} {e : Entry}
    (he : m.entered? callee arguments = some e) : e.function.routine.params.length = arguments.length := by
  rcases entered?_cases he with ⟨id, f, rfl, -, harity, rfl⟩ | ⟨classId, method, rfl, harity, hmethod, rfl⟩
  · exact harity
  · rw [Heap.classArity, hmethod] at harity
    exact harity

/-- A function begins with each parameter bound to the argument in its place. -/
theorem Entry.getOwn?_inside {e : Entry} {arguments : List Value} {i : Nat} {param : Token}
    (hd : (e.function.routine.params.map (·.lexeme)).Nodup)
    (harity : e.function.routine.params.length = arguments.length)
    (hparam : e.function.routine.params[i]? = some param) :
    ∃ value, arguments[i]? = some value ∧
      (e.inside arguments).heap.getOwn? (e.inside arguments).frame param.lexeme = some value := by
  obtain ⟨hi, -⟩ := List.getElem?_eq_some_iff.mp hparam
  obtain ⟨value, hvalue⟩ : ∃ value, arguments[i]? = some value := ⟨_, List.getElem?_eq_getElem (harity ▸ hi)⟩
  have hentry : (param.lexeme, value) ∈ (e.function.routine.params.map (·.lexeme)).zip arguments := by
    refine List.mem_of_getElem? (i := i) (List.getElem?_zip_eq_some.mpr ⟨?_, hvalue⟩)
    rw [List.getElem?_map, hparam]
    rfl
  have hnames : (((e.function.routine.params.map (·.lexeme)).zip arguments).map (·.1)).Nodup := by
    rwa [List.map_fst_zip (by rw [List.length_map]; exact Nat.le_of_eq harity)]
  exact ⟨value, hvalue, Option.bind_eq_some_iff.mpr ⟨_, Heap.frame?_addFrame_self _ _, Table.get?_putAll hnames hentry⟩⟩

/-! ### Sessions -/

namespace Session

variable {s : Session} {past : List Visit}

theorem wellFormed_of_check {source : List UInt8} {program : List Stmt} (h : (s.check source).1 = some program) :
    ∀ x ∈ program, x.WellFormed := by
  rcases check_cases s source with ⟨n, -, hnone, -⟩ | ⟨statements, n, checked, hderives, -, -, hcases⟩
  · cases hnone.symm.trans h
  · rcases hcases with ⟨hnone, -⟩ | ⟨hsome, -⟩
    · cases hnone.symm.trans h
    · cases hsome.symm.trans h
      have hread := wellFormed_parse s.nextId (Token.good (Token.scan source))
      rwa [parse_of_derives hderives] at hread

/-- What holds at each node of all that is accepted holds at each node of all that a session holds. -/
theorem Reached.upholds {P : Tree → Prop}
    (hP : ∀ (s : Session) source program, (s.check source).1 = some program → ∀ x ∈ program, (Tree.stmt x).Everywhere P)
    (h : s.Reached past) : s.machine.heap.Upholds P := by
  induction h with
  | start sink input clock host =>
    refine ⟨fun id f hf => ?_, fun method hm => ?_⟩
    · simp [Machine.initial, Machine.initialHeap, Heap.closure?] at hf
    · obtain ⟨id, c, name, hc, -⟩ := hm
      simp [Machine.initial, Machine.initialHeap, Heap.class?] at hc
  | parse source _ ih => exact ih
  | @run s past steps source diagnostics s' _ hrun ih =>
    obtain ⟨distances, -, ⟨-, heq⟩ | ⟨program, m, hprogram, hended, heq⟩⟩ := run_leaves hrun
    · rw [heq]
      exact ih
    · have hleft : (Machine.interpret steps program { s.machine with distances }).2.heap.Upholds P :=
        Machine.upholds_interpret ih (hP s source program hprogram)
      rw [hended] at hleft
      rw [heq]
      exact hleft
  | define name value _ ih => exact ih.of_eq rfl rfl
  | exchange sink input clock host _ ih => exact ih

theorem Reached.upholds_check {P : Tree → Prop}
    (hP : ∀ (s : Session) source program, (s.check source).1 = some program → ∀ x ∈ program, (Tree.stmt x).Everywhere P)
    (h : s.Reached past) (source : List UInt8) : (s.check source).2.2.machine.heap.Upholds P := by
  have hheap : s.machine.heap.Upholds P := h.upholds hP
  obtain ⟨distances, n, hleft, -, -⟩ := check_leaves s source
  rw [hleft]
  exact hheap

/-- All that a session holds is well-formed. -/
theorem Reached.wellFormed_check (h : s.Reached past) (source : List UInt8) :
    (s.check source).2.2.machine.heap.Upholds Tree.WellFormed :=
  h.upholds_check (fun _ _ _ => wellFormed_of_check) source

end Session

/-- Every statement that is read is well-formed, whatever the tokens are. So in every session no run of an accepted source
fails because of an unknown operator, nor does anything in its course; and a function that is entered, be it an
initializer or not, has as many parameters as there are arguments, no more than allowed, and its body begins with each of
them bound to the argument in its place. -/
theorem operators_always_known :
    (∀ nextId tokens, ∀ x ∈ (parse nextId tokens).statements, (Tree.stmt x).Everywhere Tree.WellFormed) ∧
    ∀ (s : Session) (past : List Visit) (source : List UInt8) (program : List Stmt) (steps : Nat), s.Reached past →
      (s.check source).1 = some program →
      (∀ error, ((s.check source).2.2.machine.interpret steps program).1 = .failed error → error.fault.KnowsOperators) ∧
      ∀ a outer, (s.check source).2.2.machine.Underway steps program (a :: outer) →
        (∀ error w, a.outcome = .stopped (.failed error) w → error.fault.KnowsOperators) ∧
        ∀ k callee arguments line n e, a = ⟨k + 1, .invoke callee arguments line, n⟩ →
          n.entered? callee arguments = some e → n.depth < depthLimit →
          perform (k + 1) (.invoke callee arguments line) n =
            e.finish (Evaluation.executeAll (perform k) e.function.routine.body (e.inside arguments)) ∧
          e.function.routine.params.length = arguments.length ∧ arguments.length ≤ arityLimit ∧
          ∀ (i : Nat) param, e.function.routine.params[i]? = some param → ∃ value, arguments[i]? = some value ∧
            (e.inside arguments).heap.getOwn? (e.inside arguments).frame param.lexeme = some value := by
  refine ⟨wellFormed_parse, fun s past source program steps hs hprogram => ?_⟩
  have hheap := hs.wellFormed_check source
  have hread := Session.wellFormed_of_check hprogram
  have hknown : ∀ a outer, (s.check source).2.2.machine.Underway steps program (a :: outer) →
      ∀ error w, a.outcome = .stopped (.failed error) w → error.fault.KnowsOperators := by
    intro a outer hunder error w hfailed
    obtain ⟨hm, ht⟩ := hunder.upholds hheap hread
    exact perform_knowsOperators hm ht hfailed
  refine ⟨fun error hended => ?_, fun a outer hunder => ⟨hknown a outer hunder, ?_⟩⟩
  · obtain ⟨a, w, hunder, hfailed⟩ := Machine.interpret_failed hended
    exact hknown a [] hunder error w hfailed
  · rintro k callee arguments line n e rfl he hd
    obtain ⟨hm, -⟩ := hunder.upholds hheap hread
    obtain ⟨-, hfunction⟩ := hm.entered? he
    obtain ⟨hsettled, hready⟩ := hs.settled.check source
    have hsound : n.Sound _ := hunder.placed (hready program hprogram) rfl hsettled.stands
    obtain ⟨around, kind, r, hchecked⟩ := hsound.entered? he
    have harity := Machine.entered?_arity he
    exact ⟨(invocation_of_entry (perform k) line he).trans (if_neg (Nat.not_le.mpr hd)), harity,
      harity ▸ hfunction.here, fun i param => Entry.getOwn?_inside hchecked.distinct harity⟩

/-! ### A function that is called in a later run -/

namespace Identity

/-- The entry into the function. -/
def entry : Entry := ⟨⟨routine, globalFrame, false⟩, session.machine, none⟩

def invocation : Activity := ⟨3, .invoke (.closure ⟨0⟩) [.nil] 1, session.machine⟩

theorem underway_call : ∃ outer, session.machine.Underway 5 [statement] (invocation :: outer) := by
  have hstatement : Activity.AsksFor ⟨5, .execute statement, session.machine⟩
      ⟨4, .evaluate (.call (.var 1 (name "f" 0)) (mark .rightParen 5) [.literal .nil]), session.machine⟩ :=
    .intro (steers_bind (.evaluate _)).asks
  have hcall : Activity.AsksFor
      ⟨4, .evaluate (.call (.var 1 (name "f" 0)) (mark .rightParen 5) [.literal .nil]), session.machine⟩
      invocation := by
    refine .intro (asks_of_suspended (fun n h => by cases h) fun q hq hsuspended => ⟨session.machine, ?_⟩)
    have hcallee : q (.evaluate (.var 1 (name "f" 0))) session.machine = .done (.closure ⟨0⟩) session.machine :=
      hq _ _ (by simp)
    have hvalue : q (.evaluate (.literal .nil)) session.machine = .done .nil session.machine := hq _ _ (by simp)
    have hvalues : Evaluation.evaluateAll q [.literal .nil] session.machine = .done [.nil] session.machine :=
      Run.bind_of_done hvalue
    exact (Run.bind_of_done hcallee).trans ((Run.bind_of_done hvalues).trans hsuspended)
  exact ⟨_, (Machine.Underway.here.within hstatement).within hcall⟩

end Identity

/-- The function of an earlier run begins with its parameter bound to the argument of the call. -/
theorem argument_bound_on_entry :
    Identity.session.Reached (Session.visits {} Identity.declaration) ∧
      (Identity.session.check Identity.call).1 = some [Identity.statement] ∧
      (∃ outer, (Identity.session.check Identity.call).2.2.machine.Underway 5 [Identity.statement]
        (Identity.invocation :: outer)) ∧
      Identity.session.machine.entered? (.closure ⟨0⟩) [.nil] = some Identity.entry ∧
      (Identity.entry.inside [.nil]).heap.getOwn? (Identity.entry.inside [.nil]).frame "a" = some .nil := by
  have hs : Identity.session.Reached (Session.visits {} Identity.declaration) :=
    .run (.start {} {} {} []) Identity.run_declaration
  obtain ⟨hprogram, hmachine⟩ := Identity.check_call
  obtain ⟨outer, hunder⟩ := Identity.underway_call
  rw [← hmachine] at hunder
  have he : Identity.session.machine.entered? (.closure ⟨0⟩) [.nil] = some Identity.entry := rfl
  have hd : Identity.session.machine.depth < depthLimit := by decide
  obtain ⟨-, hcourse⟩ := operators_always_known.2 _ _ _ _ 5 hs hprogram
  obtain ⟨-, -, -, hbound⟩ := (hcourse _ outer hunder).2 2 _ _ _ _ _ rfl he hd
  obtain ⟨value, hvalue, hown⟩ := hbound 0 (Identity.name "a" 6) rfl
  cases hvalue
  exact ⟨hs, hprogram, ⟨outer, hunder⟩, he, hown⟩

end Treewalk
