import Mathlib.Data.List.Nodup
import Treewalk.Proofs.Machine.Loop
import Treewalk.Proofs.Scope.Confinement
import Treewalk.Proofs.Scope.Parting
import Treewalk.Proofs.Scope.Passing
import Treewalk.Proofs.Tree.Copies

/-!
The check of loops with three clauses. Directly, a loop has one scope, in which its clauses and its body are checked.
In the tree that stands for it there is a scope for the initializer, if there is one, and a scope for each round, if there
is an increment. A copy of the loop that is checked directly has counterparts of all parts of the tree; and what it runs
never breaks from its increment.
-/

namespace Treewalk

open Resolver

/-- A new frame mirrors a scope that declares nothing yet. -/
theorem Machine.Stands.inBlock {known : List Visit} {around : List Initializing} {names : List (List String)}
    {m : Machine} (hm : m.Stands known around names) : m.inBlock.Stands known around ([] :: names) := by
  let child : Frame := { enclosing := some m.frame }
  have henlarges : Heap.Enlarges known m.heap (m.heap.addFrame child).2 := Heap.Enlarges.addFrame m.heap child
  exact ⟨⟨henlarges.sound hm.sound.heap, hm.sound.recorded⟩, (hm.mirrors.grow henlarges.grows).push
    (Heap.frame?_addFrame_self m.heap child) (hm.sound.heap.addFrame_ne child) nofun⟩

/-- Evaluating an expression leaves the machine where it stands. -/
theorem Expr.Ready.stands {known : List Visit} {around : List Initializing} {r : Resolver} {e : Expr} {m q : Machine}
    {n : Nat} {a : Value} (he : e.Ready known around r) (hm : m.Stands known around r.names)
    (hq : perform n (.evaluate e) m = .done a q) : q.Stands known around r.names := by
  have hkept := (perform_keeps known n).evaluate e m (Or.inl ⟨around, r, he, hm⟩)
  rw [hq] at hkept
  exact hm.onward hkept.1

/-- What maps the result of a run comes to what the run comes to. -/
theorem Run.map_cases {α β : Type} (g : α → β) (r : Run α) (m : Machine) :
    (∃ a q, r m = .done a q ∧ (g <$> r) m = .done (g a) q) ∨ ∃ s q, r m = .stopped s q ∧ (g <$> r) m = .stopped s q := by
  cases hr : r m with
  | done a q => exact .inl ⟨a, q, rfl, bind_of_done hr⟩
  | stopped s q => exact .inr ⟨s, q, rfl, bind_of_stopped hr⟩

namespace ForLoop

variable (loop : ForLoop)

/-- The loop with other identities. -/
def copy (node : NodeId → NodeId) : ForLoop where
  initializer := loop.initializer.map (·.relabel (.identities node))
  condition := loop.condition.map (·.relabel (.identities node))
  increment := loop.increment.map (·.relabel (.identities node))
  body := loop.body.relabel (.identities node)

theorem tree_copy (node : NodeId → NodeId) : (loop.copy node).tree = loop.tree.relabel (.identities node) := by
  obtain ⟨initializer, condition, increment, body⟩ := loop
  cases initializer <;> cases condition <;> cases increment <;> rfl

/-! ### The direct check -/

/-- Checks the initializer and the condition. -/
def checkHead (r : Resolver) : Resolver :=
  Expr.resolveAll loop.condition.toList (Stmt.resolveAll loop.initializer.toList r)

/-- Checks the body and then the increment. -/
def checkRound (r : Resolver) : Resolver :=
  Expr.resolveAll loop.increment.toList (loop.body.resolve r)

/-- The state in which the rounds of the loop are checked: its body stands in one loop more. -/
def roundStart (r : Resolver) : Resolver :=
  { loop.checkHead r with loops := (loop.checkHead r).loops + 1 }

/-- Checks the loop. All of it stands in one scope, which has the names of the initializer. -/
def resolve (r : Resolver) : Resolver :=
  let r := (loop.checkRound (loop.roundStart r.openScope)).closeScope
  { r with loops := r.loops - 1 }

def headVisits (around : List Initializing) (r : Resolver) : List Visit :=
  Stmt.allVisits around loop.initializer.toList r
    ++ Expr.allVisits around loop.condition.toList (Stmt.resolveAll loop.initializer.toList r)

def roundVisits (around : List Initializing) (r : Resolver) : List Visit :=
  loop.body.visits around r ++ Expr.allVisits around loop.increment.toList (loop.body.resolve r)

/-- The visits of the check in the loop. -/
def visits (around : List Initializing) (r : Resolver) : List Visit :=
  loop.headVisits around r.openScope ++ loop.roundVisits around (loop.roundStart r.openScope)

/-- The trees of the loop have the shape that the grammar gives them, and the body declares nothing. -/
structure Shaped : Prop where
  initializer : Stmt.AllShaped loop.initializer.toList
  condition : Expr.AllShaped loop.condition.toList
  increment : Expr.AllShaped loop.increment.toList
  body : loop.body.Shaped
  plain : loop.body.declared? = none

variable {loop}

theorem shaped_of_tree (h : loop.tree.Shaped) (hb : loop.body.declared? = none) : loop.Shaped := by
  have hinitializer : Stmt.AllShaped loop.initializer.toList ∧ loop.whileTree.Shaped := by
    rw [tree_eq] at h
    cases hi : loop.initializer with
    | none =>
      rw [hi] at h
      exact ⟨trivial, h⟩
    | some s =>
      rw [hi] at h
      exact ⟨⟨h.1, trivial⟩, h.2.1⟩
  obtain ⟨hinitializer, hcondition, -, hround⟩ := hinitializer
  have hincrement : Expr.AllShaped loop.increment.toList ∧ loop.body.Shaped := by
    unfold roundTree at hround
    cases hi : loop.increment with
    | none =>
      rw [hi] at hround
      exact ⟨trivial, hround⟩
    | some e =>
      rw [hi] at hround
      exact ⟨⟨hround.2.1, trivial⟩, hround.1⟩
  refine ⟨hinitializer, ?_, hincrement.1, hincrement.2, hb⟩
  cases hc : loop.condition with
  | none => exact trivial
  | some e =>
    rw [hc] at hcondition
    exact ⟨hcondition, trivial⟩

theorem Shaped.copy (h : loop.Shaped) (node : NodeId → NodeId) : (loop.copy node).Shaped := by
  refine shaped_of_tree ?_ (Stmt.declares_nothing_relabel h.plain)
  rw [tree_copy]
  exact Stmt.shaped_relabel _ (Grammar.shaped_loopTree h.initializer h.condition h.increment ⟨h.plain, h.body⟩).2

/-! ### Walks -/

variable {around : List Initializing} {r r' : Resolver}

theorem Shaped.walkHead (h : loop.Shaped) (around : List Initializing) (r : Resolver) :
    Walk around (loop.initializer.toList.foldl (fun names s => declareIn names s.declared?) r.names)
      (Stmt.allReferences loop.initializer.toList ++ Expr.allReferences loop.condition.toList) r
      (loop.headVisits around r) (loop.checkHead r) := by
  have hinitializer := Stmt.allWalk loop.initializer.toList around r h.initializer
  have hcondition := Expr.allWalk loop.condition.toList around (Stmt.resolveAll loop.initializer.toList r) h.condition
  rw [hinitializer.names_eq] at hcondition
  exact hinitializer.trans hcondition

theorem Shaped.walkRound (h : loop.Shaped) (around : List Initializing) (r : Resolver) :
    Walk around r.names (loop.body.references ++ Expr.allReferences loop.increment.toList) r
      (loop.roundVisits around r) (loop.checkRound r) := by
  have hbody := loop.body.walk around r h.body
  rw [h.plain] at hbody
  exact hbody.seq (Expr.allWalk loop.increment.toList around (loop.body.resolve r) h.increment)

theorem silent_roundStart (r : Resolver) : Silent (loop.checkHead r) (loop.roundStart r) := ⟨List.prefix_refl _, rfl, rfl⟩

theorem silent_close (r : Resolver) :
    Silent (loop.checkRound (loop.roundStart r.openScope)) (loop.resolve r) :=
  (Silent.closeScope _).trans ⟨List.prefix_refl _, rfl, rfl⟩

theorem Shaped.walk (h : loop.Shaped) (around : List Initializing) (r : Resolver) :
    Walk around r.names loop.tree.references r (loop.visits around r) (loop.resolve r) := by
  have hhead := ((h.walkHead around r.openScope).after (Silent.openScope r)).before
    (silent_roundStart r.openScope) (h.walkHead around r.openScope).names_eq
  have hround := h.walkRound around (loop.roundStart r.openScope)
  have hnames : (loop.resolve r).names = r.names := by
    show (loop.checkRound (loop.roundStart r.openScope)).closeScope.names = r.names
    rw [names_closeScope, hround.names_eq, hhead.names_eq, tail_foldl_declareIn]
    rfl
  rw [hhead.names_eq] at hround
  have hall := (hhead.trans hround).before (silent_close r) hnames
  rw [List.append_assoc] at hall
  rw [tree, Grammar.references_loopTree]
  exact hall

/-! ### Loops that are ready -/

/-- The loop is directly checked without a fault, and its visits are known. -/
structure Ready (known : List Visit) (around : List Initializing) (r : Resolver) (loop : ForLoop) : Prop where
  shaped : loop.Shaped
  clean : (loop.resolve r).Clean
  visits : loop.visits around r ⊆ known

namespace Ready

variable {known : List Visit} {s : Stmt} {e : Expr} (h : loop.Ready known around r)
include h

theorem clean_round : (loop.checkRound (loop.roundStart r.openScope)).Clean :=
  h.clean.of_findings (silent_close r).findings

theorem clean_body : (loop.body.resolve (loop.roundStart r.openScope)).Clean :=
  h.clean_round.of_findings (Expr.allWalk _ around _ h.shaped.increment).findings

theorem clean_head : (loop.checkHead r.openScope).Clean :=
  (h.clean_body.of_findings (loop.body.walk around _ h.shaped.body).findings).of_findings
    (silent_roundStart r.openScope).findings

theorem initializer (hs : loop.initializer = some s) : s.Ready known around r.openScope := by
  have hlist : loop.initializer.toList = [s] := by rw [hs]; rfl
  have hclean : (Stmt.resolveAll loop.initializer.toList r.openScope).Clean :=
    h.clean_head.of_findings (Expr.allWalk _ around _ h.shaped.condition).findings
  have hvisits := (List.append_subset.mp (List.append_subset.mp h.visits).1).1
  have hshaped := h.shaped.initializer
  rw [hlist] at hclean hvisits hshaped
  exact ⟨hshaped.1, hclean, (List.append_subset.mp hvisits).1⟩

theorem condition (he : loop.condition = some e) :
    e.Ready known around (Stmt.resolveAll loop.initializer.toList r.openScope) := by
  have hlist : loop.condition.toList = [e] := by rw [he]; rfl
  have hclean := h.clean_head
  have hvisits := (List.append_subset.mp (List.append_subset.mp h.visits).1).2
  have hshaped := h.shaped.condition
  unfold checkHead at hclean
  rw [hlist] at hclean hvisits hshaped
  exact ⟨hshaped.1, hclean, (List.append_subset.mp hvisits).1⟩

theorem body : loop.body.Ready known around (loop.roundStart r.openScope) :=
  ⟨h.shaped.body, h.clean_body, (List.append_subset.mp (List.append_subset.mp h.visits).2).1⟩

theorem increment (he : loop.increment = some e) :
    e.Ready known around (loop.body.resolve (loop.roundStart r.openScope)) := by
  have hlist : loop.increment.toList = [e] := by rw [he]; rfl
  have hclean := h.clean_round
  have hvisits := (List.append_subset.mp (List.append_subset.mp h.visits).2).2
  have hshaped := h.shaped.increment
  unfold checkRound at hclean
  rw [hlist] at hclean hvisits hshaped
  exact ⟨hshaped.1, hclean, (List.append_subset.mp hvisits).1⟩

/-! ### Running -/

variable {m q : Machine} {n : Nat}

/-- Behind the initializer the machine stands in the scope of the loop. -/
theorem stands_start (hm : m.Stands known around ([] :: r.names)) (hq : loop.start (perform n) m = .done () q) :
    q.Stands known around (loop.checkHead r.openScope).names := by
  have hnames := (h.shaped.walkHead around r.openScope).names_eq
  unfold start at hq
  cases hi : loop.initializer with
  | none =>
    rw [hi] at hq hnames
    cases hq
    rw [hnames]
    exact hm
  | some s =>
    rw [hi] at hq hnames
    have hkept := (perform_keeps known n).execute s around r.openScope m (h.initializer hi) hm
    rw [show perform n (.execute s) m = .done () q from hq] at hkept
    rw [hnames]
    exact hkept.2

theorem names_initializer :
    (Stmt.resolveAll loop.initializer.toList r.openScope).names = (loop.checkHead r.openScope).names :=
  (Expr.allWalk _ around _ h.shaped.condition).names_eq.symm

theorem names_body :
    (loop.body.resolve (loop.roundStart r.openScope)).names = (loop.checkHead r.openScope).names := by
  rw [(loop.body.walk around _ h.shaped.body).names_eq, h.shaped.plain]
  rfl

theorem stands_test {b : Bool} (hm : m.Stands known around (loop.checkHead r.openScope).names)
    (hq : loop.test (perform n) m = .done b q) : q.Stands known around (loop.checkHead r.openScope).names := by
  unfold test at hq
  cases hc : loop.condition with
  | none =>
    rw [hc] at hq
    cases hq
    exact hm
  | some e =>
    rw [hc] at hq
    rw [← h.names_initializer] at hm ⊢
    obtain ⟨a, w, hw, heq⟩ | ⟨s, w, -, heq⟩ := Run.map_cases Value.truthy (perform n (.evaluate e)) m
    · cases heq.symm.trans hq
      exact (h.condition hc).stands hm hw
    · cases heq.symm.trans hq

theorem stands_body (hm : m.Stands known around (loop.checkHead r.openScope).names)
    (hq : perform n (.execute loop.body) m = .done () q) :
    q.Stands known around (loop.checkHead r.openScope).names := by
  have hkept := (perform_keeps known n).execute loop.body around (loop.roundStart r.openScope) m h.body hm
  rw [hq] at hkept
  have hstands := hkept.2
  rw [h.shaped.plain] at hstands
  exact hstands

/-- The increment leaves the machine in the scope of the loop, and does not break. -/
theorem stands_advance (hm : m.Stands known around (loop.checkHead r.openScope).names) :
    (∀ q, loop.advance (perform n) m = .done () q → q.Stands known around (loop.checkHead r.openScope).names) ∧
      ∀ q, loop.advance (perform n) m ≠ .stopped .broke q := by
  unfold advance
  cases hi : loop.increment with
  | none =>
    refine ⟨?_, nofun⟩
    rintro q ⟨⟩
    exact hm
  | some e =>
    have he := h.increment hi
    rw [← h.names_body] at hm ⊢
    obtain ⟨a, w, hw, heq⟩ | ⟨s, w, hw, heq⟩ := Run.map_cases (fun _ => ()) (perform n (.evaluate e)) m
    · refine ⟨fun q hq => ?_, fun q hq => ?_⟩
      · cases heq.symm.trans hq
        exact he.stands hm hw
      · cases heq.symm.trans hq
    · refine ⟨fun q hq => ?_, fun q hq => ?_⟩
      · cases heq.symm.trans hq
      · -- Only statements can break.
        cases heq.symm.trans hq
        have hplaced : (Task.evaluate e).Placed known m := Or.inl ⟨around, _, he, hm⟩
        have hjump : Signal.broke.jump? = some .loop := rfl
        obtain ⟨s, htask, -⟩ := hplaced.jumps_ne_nil hjump hw
        cases htask

/-- In the course of a loop that is ready, body and increment act as one body. -/
theorem run_eq_merged (hm : m.Stands known around r.names) (n : Nat) :
    loop.run (perform n) n m = loop.merged (perform n) n m := by
  unfold run merged
  rw [Run.inScope_eq, Run.inScope_eq]
  cases hs : loop.start (perform n) m.inBlock with
  | stopped s q => rw [Run.bind_of_stopped hs, Run.bind_of_stopped hs]
  | done _ q =>
    rw [Run.bind_of_done hs, Run.bind_of_done hs]
    congr 1
    exact Run.cycle_eq_repeatWhile (·.Stands known around (loop.checkHead r.openScope).names)
      (fun _ _ _ hm => h.stands_test hm) (fun _ _ hm => h.stands_body hm) (fun _ hm => h.stands_advance hm) n
      (h.stands_start hm.inBlock hs)

end Ready

/-! ### The check of the tree -/

/-- The state in which the tree has the initializer: in a scope of its own, if there is one. -/
def opened (loop : ForLoop) (r : Resolver) : Resolver :=
  match loop.initializer with
  | some _ => r.openScope
  | none => r

/-- The state in which the tree has the body: in a scope of its own, if there is an increment. -/
def entered (loop : ForLoop) (r : Resolver) : Resolver :=
  match loop.increment with
  | some _ => r.openScope
  | none => r

theorem visits_tree (around : List Initializing) (r : Resolver) :
    loop.tree.visits around r = loop.headVisits around (loop.opened r)
      ++ loop.roundVisits around (loop.entered (loop.roundStart (loop.opened r))) := by
  obtain ⟨initializer, condition, increment, body⟩ := loop
  cases initializer <;> cases condition <;> cases increment <;>
    simp [tree, Grammar.loopTree, headVisits, roundVisits, opened, entered, roundStart, checkHead, Stmt.visits,
      Stmt.allVisits, Stmt.resolveAll, Expr.visits, Expr.allVisits, Expr.resolve, Expr.resolveAll]

theorem silent_tree (r : Resolver) :
    Silent (loop.checkRound (loop.entered (loop.roundStart (loop.opened r)))) (loop.tree.resolve r) := by
  have hround : ∀ q, Silent (loop.checkRound (loop.entered q)) (loop.roundTree.resolve q) := by
    intro q
    unfold checkRound entered roundTree
    cases loop.increment with
    | none => exact .refl _
    | some e => exact .closeScope _
  have hcondition : ∀ q, (loop.condition.getD (.literal (.bool true))).resolve q =
      Expr.resolveAll loop.condition.toList q := by
    intro q
    cases loop.condition with
    | none => rfl
    | some e => rfl
  have hwhile : ∀ q, Silent (loop.checkRound (loop.entered { Expr.resolveAll loop.condition.toList q with
      loops := (Expr.resolveAll loop.condition.toList q).loops + 1 })) (loop.whileTree.resolve q) := by
    intro q
    rw [← hcondition]
    exact (hround _).trans ⟨List.prefix_refl _, rfl, rfl⟩
  rw [tree_eq]
  unfold roundStart checkHead opened
  cases loop.initializer with
  | none => exact hwhile r
  | some s => exact (hwhile (s.resolve r.openScope)).trans (.closeScope _)

/-! ### The copy beside the tree -/

section
variable {layers : Layers} (node : NodeId → NodeId)

omit node in
theorem opened_abreast (h : Resolver.Abreast layers r r') :
    Resolver.Abreast (loop.header layers) (loop.opened r) r'.openScope := by
  unfold header opened
  cases loop.initializer with
  | none => exact { h with scopes := ⟨r'.scopes, rfl, h.scopes⟩ }
  | some s => exact h.openScope

theorem Shaped.initializer_abreast (hs : loop.Shaped) (h : Resolver.Abreast (loop.header layers) r r') :
    Resolver.Abreast (loop.header layers) (Stmt.resolveAll loop.initializer.toList r)
      (Stmt.resolveAll (loop.copy node).initializer.toList r') := by
  have hshaped := hs.initializer
  unfold ForLoop.copy
  unfold header at h ⊢
  cases hi : loop.initializer with
  | none =>
    rw [hi] at h
    exact h
  | some s =>
    rw [hi] at h hshaped
    exact s.resolve_abreast h hshaped.1 fun _ => trivial

theorem clause_abreast {e? : Option Expr} (h : Resolver.Abreast layers r r') (hs : Expr.AllShaped e?.toList) :
    Resolver.Abreast layers (Expr.resolveAll e?.toList r)
      (Expr.resolveAll (e?.map (·.relabel (.identities node))).toList r') := by
  cases e? with
  | none => exact h
  | some e => exact e.resolve_abreast h hs.1

theorem Shaped.roundStart_abreast (hs : loop.Shaped) (h : Resolver.Abreast (loop.header layers) r r') :
    Resolver.Abreast (loop.header layers) (loop.roundStart r) ((loop.copy node).roundStart r') :=
  (clause_abreast node (hs.initializer_abreast node h) hs.condition).looped (· + 1)

omit node in
/-- The names in the scope of a loop have their values when its rounds begin. -/
theorem settled_roundStart (loop : ForLoop) (r : Resolver) : (loop.roundStart r.openScope).Settled := by
  obtain ⟨_, hinitializer⟩ := Stmt.allPassing loop.initializer.toList [] r.openScope
  exact (Expr.allPassing loop.condition.toList [] _).settled (hinitializer.settled r.settled_openScope)

omit node in
theorem entered_abreast (h : Resolver.Abreast (loop.header layers) r r') (hsettled : r'.Settled) :
    Resolver.Abreast (loop.inner layers) (loop.entered r) r' := by
  unfold inner entered
  cases loop.increment with
  | none => exact h
  | some e => exact { h with scopes := ⟨hsettled, r.scopes, rfl, h.scopes⟩ }

theorem Shaped.body_abreast (hs : loop.Shaped) (h : Resolver.Abreast (loop.inner layers) r r') :
    Resolver.Abreast (loop.inner layers) (loop.body.resolve r) ((loop.copy node).body.resolve r') :=
  loop.body.resolve_abreast h hs.body (absurd hs.plain)

theorem Shaped.rounds_abreast (hs : loop.Shaped) (h : Resolver.Abreast layers r r') :
    Resolver.Abreast (loop.inner layers) (loop.entered (loop.roundStart (loop.opened r)))
      ((loop.copy node).roundStart r'.openScope) :=
  entered_abreast (hs.roundStart_abreast node (opened_abreast h)) (settled_roundStart _ r')

/-- The direct check of a copy finds no fault if that of the tree finds none. -/
theorem Shaped.clean_copy (hs : loop.Shaped) (h : Resolver.Abreast layers r r') (hclean : (loop.tree.resolve r).Clean) :
    ((loop.copy node).resolve r').Clean := by
  have hround := clause_abreast node (hs.body_abreast node (hs.rounds_abreast node h)) hs.increment
  exact Resolver.Abreast.clean_closeScope (hround.clean (hclean.of_findings (silent_tree r).findings))

variable {d d' : Distances} {around' : List Initializing}

theorem clause_matches {e? : Option Expr} (h : Resolver.Abreast layers r r') (hs : Expr.AllShaped e?.toList)
    (hd : d.Holds (Expr.allVisits around e?.toList r))
    (hd' : d'.Holds (Expr.allVisits around' (e?.map (·.relabel (.identities node))).toList r')) :
    Option.Rel (Expr.Matches d d' layers) e? (e?.map (·.relabel (.identities node))) := by
  cases e? with
  | none => exact .none
  | some e => exact .some (e.matches_copy h hs.1 hd.split.1 hd'.split.1)

/-- A copy that is directly checked beside the tree has the counterparts of its clauses and of its body. -/
theorem Shaped.matches_copy (hs : loop.Shaped) (h : Resolver.Abreast layers r r')
    (hd : d.Holds (loop.tree.visits around r)) (hd' : d'.Holds ((loop.copy node).visits around' r')) :
    loop.Matches d d' layers (loop.copy node) := by
  rw [visits_tree] at hd
  obtain ⟨hhead, hround⟩ := hd.split
  obtain ⟨hhead', hround'⟩ := hd'.split
  have hopened : Resolver.Abreast (loop.header layers) (loop.opened r) r'.openScope := opened_abreast h
  have hrounds := hs.rounds_abreast node h
  refine ⟨?_, ?_, ?_, ?_⟩
  · have hvisits := hhead.split.1
    have hvisits' := hhead'.split.1
    have hshaped := hs.initializer
    unfold ForLoop.copy at hvisits' ⊢
    unfold header at hopened ⊢
    cases hi : loop.initializer with
    | none => exact .none
    | some s =>
      rw [hi] at hvisits hvisits' hshaped hopened
      exact .some (s.matches_copy hopened hshaped.1 (fun _ => trivial) hvisits.split.1 hvisits'.split.1)
  · exact clause_matches node (hs.initializer_abreast node hopened) hs.condition hhead.split.2 hhead'.split.2
  · exact loop.body.matches_copy hrounds hs.body (absurd hs.plain) hround.split.1 hround'.split.1
  · exact clause_matches node (hs.body_abreast node hrounds) hs.increment hround.split.2 hround'.split.2

end

/-! ### The table of the copy -/

/-- The identities are new: no two nodes get the same one, the table has none of them, and nothing known has one. -/
structure New (node : NodeId → NodeId) (known : List Visit) (d : Distances) : Prop where
  injective : Function.Injective node
  unrecorded : ∀ id, d.find? (node id) = none
  unknown : ∀ v ∈ known, ∀ id, v.reference.id ≠ node id

/-- The distances that a check of the loop adds to a table. -/
def table (loop : ForLoop) (r : Resolver) (d : Distances) : Distances :=
  (loop.resolve { r with distances := d }).distances

section
variable {known : List Visit} {d : Distances} {node : NodeId → NodeId} (hs : loop.Shaped)
  (hclean : (loop.tree.resolve r).Clean) (hnew : New node known d)
include hs

theorem clean_direct (hclean : (loop.tree.resolve r).Clean) (node : NodeId → NodeId) (d : Distances) :
    ((loop.copy node).resolve { r with distances := d }).Clean :=
  hs.clean_copy node (.withTable r d) hclean

/-- The visits of the copy are those of nodes with the new identities. -/
theorem ids_copy (node : NodeId → NodeId) (around : List Initializing) (q : Resolver) :
    (((loop.copy node).visits around q).map (·.reference.id)).Perm ((loop.tree.references.map (·.id)).map node) := by
  have hperm := ((hs.copy node).walk around q).perm.map (·.id)
  rw [tree_copy, Stmt.references_relabel, List.map_map, List.map_map] at hperm
  rw [List.map_map]
  exact hperm

include hclean hnew

/-- The table has the distances of the copy. -/
theorem holds_copy (hdistinct : (loop.tree.references.map (·.id)).Nodup) (around : List Initializing) :
    ((loop.copy node).table r d).Holds ((loop.copy node).visits around { r with distances := d }) := by
  have hwalk := (hs.copy node).walk around { r with distances := d }
  have hids := ids_copy hs node around { r with distances := d }
  intro v hv
  unfold table
  rw [hwalk.distances (clean_direct hs hclean node d)]
  refine Distances.find?_foldl_note_of_mem hv (hids.nodup_iff.mpr (hdistinct.map hnew.injective)) ?_
  obtain ⟨id, -, hid⟩ := List.mem_map.mp (hids.mem_iff.mp (List.mem_map_of_mem hv))
  rw [← hid]
  exact hnew.unrecorded id

/-- What was known keeps its distances. -/
theorem holds_known (hd : d.Holds known) : ((loop.copy node).table r d).Holds known := by
  have hwalk := (hs.copy node).walk [] { r with distances := d }
  have hids := ids_copy hs node [] { r with distances := d }
  intro v hv
  rw [← hd v hv]
  unfold table
  rw [hwalk.distances (clean_direct hs hclean node d)]
  refine Distances.find?_foldl_note_of_notMem d fun hmem => ?_
  obtain ⟨id, -, hid⟩ := List.mem_map.mp (hids.mem_iff.mp hmem)
  exact hnew.unknown v hv id hid.symm

end

/-- From a machine on which the tree of a loop stands in its frames, the loop with the frames of the tree and the direct
loop of a copy with new identities come to the same. -/
theorem framed_parallel_run {known : List Visit} {node : NodeId → NodeId} {m : Machine}
    (hready : loop.tree.Ready known around r) (hb : loop.body.declared? = none) (hm : m.Stands known around r.names)
    (hdistinct : (Tree.stmt loop.tree).Distinct) (hnew : New node known m.distances) (n : Nat) :
    (loop.framed (perform n) n m).Parallel ⟨m.heap, m.distances, (loop.copy node).table r m.distances⟩ [] [] Same
      ((loop.copy node).run (perform n) n { m with distances := (loop.copy node).table r m.distances }) := by
  have hs : loop.Shaped := shaped_of_tree hready.shaped hb
  have hrecorded : m.distances.Holds known := hm.sound.recorded
  have hknown := holds_known hs hready.clean hnew hrecorded
  have hcopy := holds_copy hs hready.clean hnew hdistinct around
  have hmatches : loop.Matches m.distances ((loop.copy node).table r m.distances) [] (loop.copy node) :=
    hs.matches_copy node (.withTable r m.distances) (hrecorded.of_subset hready.visits) hcopy
  -- The copy is ready on the second machine, once its own visits are known as well.
  have hdirect : (loop.copy node).Ready (known ++ (loop.copy node).visits around { r with distances := m.distances })
      around { r with distances := m.distances } :=
    ⟨hs.copy node, clean_direct hs hready.clean node m.distances, List.subset_append_right _ _⟩
  have hstands : Machine.Stands (known ++ (loop.copy node).visits around { r with distances := m.distances }) around
      r.names { m with distances := (loop.copy node).table r m.distances } :=
    ⟨⟨hm.sound.heap.mono (List.subset_append_left _ _), List.forall_mem_append.mpr ⟨hknown, hcopy⟩⟩, hm.mirrors⟩
  rw [hdirect.run_eq_merged hstands n]
  exact hmatches.parallel_framed (x := ⟨m.heap, m.distances, (loop.copy node).table r m.distances⟩) n [] m _
    (List.Subset.refl _) (hm.parallel hknown)

end ForLoop

end Treewalk
