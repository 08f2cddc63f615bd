import Treewalk.Proofs.Grammar.Derivation
import Treewalk.Proofs.Tree.Outline

/-!
How the outline of a phrase lies in its tokens. All its names are identifiers among the tokens of the phrase, each token
declares at most one name, and the names of one scope come in the order of their tokens. The events of an outline need not
come in that order: a loop has its last clause behind its body, and an assignment has its name behind its value.
-/

namespace Treewalk

open Event

theorem foldl_addName_sublist (tokens scope : List Token) : (tokens.foldl addName scope).Sublist (scope ++ tokens) := by
  induction tokens generalizing scope with
  | nil => exact (List.append_nil scope).symm ▸ List.Sublist.refl _
  | cons t rest ih =>
    refine (ih (addName scope t)).trans ?_
    unfold addName
    split
    · exact (List.Sublist.refl scope).append (List.sublist_cons_self t rest)
    · exact (List.append_cons scope t rest).symm ▸ List.Sublist.refl _

/-- The outline lies in the tokens. -/
structure Event.Orderly (tokens : List Token) (events : List Event) : Prop where
  once : ∀ t, (allNames events).count t ≤ tokens.count t
  direct : (direct events).Sublist tokens
  scopes : ∀ scope ∈ allScopes events, scope.Sublist tokens
  names : ∀ t ∈ allTokens events, t ∈ tokens ∧ t.isIdentifier

namespace Event.Orderly

variable {a b : List Token} {events more : List Event} {t : Token}

theorem nil (tokens : List Token) : Orderly tokens [] :=
  ⟨fun _ => Nat.zero_le _, List.nil_sublist _, nofun, nofun⟩

theorem widen (h : Orderly a events) (hab : a.Sublist b) : Orderly b events where
  once t := Nat.le_trans (h.once t) (hab.count_le t)
  direct := h.direct.trans hab
  scopes scope hscope := (h.scopes scope hscope).trans hab
  names t ht := ⟨hab.subset (h.names t ht).1, (h.names t ht).2⟩

theorem append (h : Orderly a events) (h' : Orderly b more) : Orderly (a ++ b) (events ++ more) where
  once t := by
    have hfirst := h.once t
    have hrest := h'.once t
    simp only [allNames_append, List.count_append]
    omega
  direct := direct_append events more ▸ h.direct.append h'.direct
  scopes scope hscope := by
    rcases List.mem_append.mp (allScopes_append events more ▸ hscope) with hscope | hscope
    · exact (h.scopes scope hscope).trans (List.sublist_append_left a b)
    · exact (h'.scopes scope hscope).trans (List.sublist_append_right a b)
  names t ht := by
    rcases List.mem_append.mp (allTokens_append events more ▸ ht) with ht | ht
    · exact ⟨List.mem_append_left b (h.names t ht).1, (h.names t ht).2⟩
    · exact ⟨List.mem_append_right a (h'.names t ht).1, (h'.names t ht).2⟩

/-- Events that come before those that their tokens follow. They must not declare anything in the scope around. -/
theorem swap (h : Orderly a events) (h' : Orderly b more) (hmore : Event.direct more = []) :
    Orderly (a ++ b) (more ++ events) := by
  have hall := h.append h'
  refine ⟨fun t => ?_, ?_, fun scope hscope => hall.scopes scope ?_, fun t ht => hall.names t ?_⟩
  · have honce := hall.once t
    simp only [allNames_append, List.count_append] at honce ⊢
    omega
  · have hdirect := hall.direct
    rw [direct_append, hmore, List.append_nil] at hdirect
    rwa [direct_append, hmore, List.nil_append]
  · rw [allScopes_append, List.mem_append] at hscope ⊢
    exact hscope.symm
  · rw [allTokens_append, List.mem_append] at ht ⊢
    exact ht.symm

theorem declare (ht : t.isIdentifier) : Orderly [t] [.declare t] where
  once _ := Nat.le_refl _
  direct := List.Sublist.refl _
  scopes := nofun
  names _ hx := ⟨hx, List.mem_singleton.mp hx ▸ ht⟩

/-- Several references may share a token. -/
theorem refer (h : Orderly a events) (kind : ReferenceKind) (id : NodeId) (hmem : t ∈ a) (ht : t.isIdentifier) :
    Orderly a (.refer ⟨kind, id, t⟩ :: events) where
  once := h.once
  direct := h.direct
  scopes := h.scopes
  names := List.forall_mem_cons.mpr ⟨⟨hmem, ht⟩, h.names⟩

theorem scope (h : Orderly a events) : Orderly a [.scope events] where
  once t := by
    rw [allNames, allNames, List.append_nil]
    exact h.once t
  direct := List.nil_sublist a
  scopes scope hscope := by
    rw [allScopes, allScopes, List.append_nil, Event.scopes, List.mem_append, List.mem_singleton] at hscope
    rcases hscope with hscope | rfl
    · exact h.scopes scope hscope
    · exact (foldl_addName_sublist (Event.direct events) []).trans h.direct
  names t ht := by
    rw [allTokens, allTokens, List.append_nil] at ht
    exact h.names t ht

end Event.Orderly

/-- From the first tokens to the second ones, which follow, lies the outline. -/
def Event.Lies (ahead after : List Token) (events : List Event) : Prop :=
  ∃ taken, ahead = taken ++ after ∧ Orderly taken events

namespace Event.Lies

variable {ahead middle after : List Token} {events more : List Event} {t : Token}

theorem nil (ahead : List Token) : Lies ahead ahead [] := ⟨[], rfl, .nil _⟩

theorem skip (h : Lies ahead after events) : Lies (t :: ahead) after events := by
  obtain ⟨taken, rfl, hall⟩ := h
  exact ⟨t :: taken, rfl, hall.widen (List.sublist_cons_self t taken)⟩

theorem close (h : Lies ahead (t :: after) events) : Lies ahead after events := by
  obtain ⟨taken, rfl, hall⟩ := h
  exact ⟨taken ++ [t], by simp, hall.widen (List.sublist_append_left _ _)⟩

theorem append (h : Lies ahead middle events) (h' : Lies middle after more) : Lies ahead after (events ++ more) := by
  obtain ⟨taken, rfl, hall⟩ := h
  obtain ⟨taken', rfl, hall'⟩ := h'
  exact ⟨taken ++ taken', by simp, hall.append hall'⟩

theorem swap (h : Lies ahead middle events) (h' : Lies middle after more) (hmore : direct more = []) :
    Lies ahead after (more ++ events) := by
  obtain ⟨taken, rfl, hall⟩ := h
  obtain ⟨taken', rfl, hall'⟩ := h'
  exact ⟨taken ++ taken', by simp, hall.swap hall' hmore⟩

theorem declare (ht : t.isIdentifier) (h : Lies ahead after events) :
    Lies (t :: ahead) after (.declare t :: events) :=
  append ⟨[t], rfl, .declare ht⟩ h

theorem refer (kind : ReferenceKind) (id : NodeId) (ht : t.isIdentifier) (h : Lies ahead after events) :
    Lies (t :: ahead) after (.refer ⟨kind, id, t⟩ :: events) :=
  append ⟨[t], rfl, (Orderly.nil [t]).refer kind id List.mem_cons_self ht⟩ h

theorem scope (h : Lies ahead after events) : Lies ahead after [.scope events] := by
  obtain ⟨taken, rfl, hall⟩ := h
  exact ⟨taken, rfl, hall.scope⟩

end Event.Lies

/-! ### Names of the scope around -/

mutual

/-- An expression declares nothing in the scope around it. -/
theorem Expr.direct_events : (e : Expr) → direct e.events = []
  | .literal _ => rfl
  | .array _ _ => rfl
  | .unary _ right => right.direct_events
  | .binary left _ right => by rw [Expr.events, direct_append, left.direct_events, right.direct_events]; rfl
  | .logical left _ right => by rw [Expr.events, direct_append, left.direct_events, right.direct_events]; rfl
  | .grouping inner => inner.direct_events
  | .var _ _ => rfl
  | .global _ => rfl
  | .assign _ _ value => by rw [Expr.events, direct_append, value.direct_events]; rfl
  | .ternary condition _ yes no => by
    rw [Expr.events, direct_append, direct_append, condition.direct_events, yes.direct_events, no.direct_events]; rfl
  | .call callee _ arguments => by
    rw [Expr.events, direct_append, callee.direct_events, Expr.direct_allEvents arguments]; rfl
  | .lambda ⟨_, _, _⟩ => rfl
  | .get object _ => object.direct_events
  | .set object _ value => by rw [Expr.events, direct_append, value.direct_events, object.direct_events]; rfl
  | .this _ _ => rfl
  | .subscript _ _ index => index.direct_events

theorem Expr.direct_allEvents : (es : List Expr) → direct (Expr.allEvents es) = []
  | [] => rfl
  | e :: rest => by rw [Expr.allEvents, direct_append, e.direct_events, Expr.direct_allEvents rest]; rfl

end

/-- A statement declares in the scope around it at most its own name. -/
theorem Stmt.direct_events : (s : Stmt) → s.Shaped → direct s.events = s.declared?.toList
  | .expression value, _ => value.direct_events
  | .print _ values, _ => Expr.direct_allEvents values
  | .varDecl _ none, _ => rfl
  | .varDecl name (some value), _ => congrArg (name :: ·) value.direct_events
  | .block _, _ => rfl
  | .ifElse condition yes none, h => by
    rw [Stmt.events, direct_append, condition.direct_events, yes.direct_events h.2.2, h.2.1]; rfl
  | .ifElse condition yes (some no), h => by
    rw [Stmt.events, direct_append, direct_append, condition.direct_events, yes.direct_events h.2.1.2, h.2.1.1,
      no.direct_events h.2.2.2, h.2.2.1]
    rfl
  | .whileLoop condition body, h => by
    rw [Stmt.events, direct_append, condition.direct_events, body.direct_events h.2.2, h.2.1]; rfl
  | .function ⟨_, _, _⟩, _ => rfl
  | .breakLoop _, _ => rfl
  | .returnValue _ none, _ => rfl
  | .returnValue _ (some value), _ => value.direct_events
  | .classDecl _ none _, _ => rfl
  | .classDecl name (some parent) methods, _ => by
    refine congrArg (name :: ·) ((direct_append parent.events _).trans ?_)
    rw [parent.direct_events]
    rfl
  | .useLibrary _ _, _ => rfl

namespace Grammar

/-- The outline of a suffix. -/
def Suffix.events : Suffix → List Event
  | .call _ arguments => Expr.allEvents arguments
  | .property _ => []

/-- The outline of what a nonterminal is read as. -/
def Nonterminal.events : (n : Nonterminal) → n.Tree → List Event
  | .declarations, v => Stmt.allEvents v
  | .declaration, v => Stmt.events v
  | .methods, v => Routine.allEvents v
  | .method, v => Routine.events v
  | .varDecl, v => Stmt.events v
  | .statement, v => Stmt.events v
  | .exprStmt, v => Stmt.events v
  | .loopStart, v => Stmt.allEvents v.toList
  | .block, v => Stmt.allEvents v
  | .parameterList, v => v.map .declare
  | .names, v => v.map .declare
  | .expression, v => Expr.events v
  | .expressions, v => Expr.allEvents v
  | .optionalExpression, v => Expr.allEvents v.toList
  | .ternary, v => Expr.events v
  | .assignment, v => Expr.events v
  | .tier _, v => Expr.events v
  | .operations _, v => v.flatMap (Expr.events ·.2)
  | .call, v => Expr.events v
  | .suffixes, v => v.flatMap Suffix.events
  | .primary, v => Expr.events v
  | .items, _ => []

theorem Chain.events {t : Tier} {symbols : List Symbol} {o : Tier} {combine : Expr → Token → Expr → Expr}
    (h : Chain t symbols o combine) (operations : List (Token × Expr)) (first : Expr) :
    (operations.foldl (fun left x => combine left x.1 x.2) first).events =
      first.events ++ operations.flatMap (Expr.events ·.2) := by
  have step : ∀ left operator right, (combine left operator right).events = left.events ++ right.events := by
    cases h <;> exact fun _ _ _ => rfl
  induction operations generalizing first with
  | nil => simp
  | cons x rest ih => simp [ih, step]

theorem events_suffixes (suffixes : List Suffix) (callee : Expr) :
    (suffixes.foldl Suffix.apply callee).events = callee.events ++ suffixes.flatMap Suffix.events := by
  induction suffixes generalizing callee with
  | nil => simp
  | cons s rest ih => cases s <;> simp [ih, Suffix.apply, Suffix.events, Expr.events]

/-- A loop with three clauses: the last one comes behind the body, in a scope with it. -/
theorem lies_loopTree {initializer : Option Stmt} {condition increment : Option Expr} {body : Stmt}
    {start test step last after : List Token} (hinitializer : Lies start test (Stmt.allEvents initializer.toList))
    (hcondition : Lies test step (Expr.allEvents condition.toList))
    (hincrement : Lies step last (Expr.allEvents increment.toList)) (hbody : Lies last after body.events)
    (hdirect : direct body.events = []) :
    Lies start after (loopTree initializer (condition.getD (.literal (.bool true))) increment body).events := by
  have hround : Lies step after (increment.elim body fun e => Stmt.block [body, .expression e]).events := by
    have hswap := hincrement.swap hbody hdirect
    cases increment with
    | none =>
      rw [Option.toList_none, Expr.allEvents, List.append_nil] at hswap
      exact hswap
    | some e =>
      refine Lies.scope ?_
      rw [Option.toList_some, Expr.allEvents, Expr.allEvents, List.append_nil] at hswap
      rw [Stmt.allEvents, Stmt.allEvents, Stmt.allEvents, List.append_nil]
      exact hswap
  have htest : Lies test step (condition.getD (.literal (.bool true))).events := by
    cases condition with
    | none => exact hcondition
    | some e =>
      rw [Option.toList_some, Expr.allEvents, Expr.allEvents, List.append_nil] at hcondition
      exact hcondition
  have hloop := htest.append hround
  rw [loopTree_eq_elim]
  cases initializer with
  | none => exact hinitializer.append hloop
  | some s =>
    refine Lies.scope ?_
    rw [Option.toList_some, Stmt.allEvents, Stmt.allEvents, List.append_nil] at hinitializer
    rw [Stmt.allEvents, Stmt.allEvents, Stmt.allEvents, List.append_nil]
    exact hinitializer.append hloop

/-- The outline of a phrase lies in its tokens. -/
theorem Derives.lies {n : Nonterminal} {p q : Point} {v : n.Tree} (h : Derives n p v q) :
    Lies p.ahead q.ahead (n.events v) := by
  induction h with
  | moreDeclarations _ _ ih₁ ih₂ => exact ih₁.append ih₂
  | baseClass _ hname _ _ _ ih => exact (ih.close.scope.skip.declare hname).skip
  | subclass _ hname _ hparent _ _ _ ih =>
    exact ((((ih.close.scope.skip).refer .var _ hparent).skip).declare hname).skip
  | function _ hname _ _ ih₁ ih₂ => exact ((ih₁.append ih₂).scope.declare hname).skip
  | «variable» _ ih => exact ih
  | library _ _ _ => exact (Lies.nil _).skip.skip.skip
  | plain _ ih => exact ih
  | moreMethods _ _ ih₁ ih₂ => exact ih₁.append ih₂
  | bareMethod _ _ ih => exact ih.scope.skip
  | method _ _ _ ih₁ ih₂ => exact (ih₁.append ih₂).scope.skip
  | noParameters _ _ => exact (Lies.nil _).skip.skip
  | parameters _ _ _ _ ih => exact ih.close.skip
  | lastName hname => exact (Lies.nil _).declare hname
  | moreNames hname _ _ ih => exact ih.skip.declare hname
  | bareVariable _ hname _ => exact ((Lies.nil _).skip.declare hname).skip
  | initializedVariable _ hname _ _ _ ih => exact (ih.close.skip.declare hname).skip
  | exprStmt _ _ ih => exact ih.close
  | expressionStatement _ ih => exact ih
  | print _ _ _ ih => exact ih.close.skip
  | noLoopStart _ => exact (Lies.nil _).skip
  | loopVariable _ ih => exact ih.append (Lies.nil _)
  | loopExpression _ ih => exact ih.append (Lies.nil _)
  | loop _ _ _ _ _ _ _ hbody ih₁ ih₂ ih₃ ih₄ =>
    have hshaped := hbody.shaped
    have hdirect := Stmt.direct_events _ hshaped.2
    rw [hshaped.1] at hdirect
    rw [← loopTree_eq_elim]
    exact (lies_loopTree ih₁ ih₂.close ih₃.close ih₄ hdirect).skip.skip
  | whileLoop _ _ _ _ _ ih₁ ih₂ => exact (ih₁.close.append ih₂).skip.skip
  | ifOnly _ _ _ _ _ _ ih₁ ih₂ => exact (ih₁.close.append ih₂).skip.skip
  | ifElse _ _ _ _ _ _ _ ih₁ ih₂ ih₃ => exact ((ih₁.close.append ih₂.close).append ih₃).skip.skip
  | breakLoop _ _ => exact (Lies.nil _).skip.skip
  | @returnValue _ _ _ _ _ _ value _ _ _ ih =>
    cases value with
    | none => exact ih.close.skip
    | some e =>
      rw [Nonterminal.events, Option.toList_some, Expr.allEvents, Expr.allEvents, List.append_nil] at ih
      exact ih.close.skip
  | inner _ ih => exact ih.scope
  | block _ _ _ ih => exact ih.close.skip
  | lambda _ _ _ ih₁ ih₂ => exact (ih₁.append ih₂).scope.skip
  | ternary _ ih => exact ih
  | lastExpression _ ih => exact ih.append (Lies.nil _)
  | moreExpressions _ _ _ ih₁ ih₂ => exact ih₁.close.append ih₂
  | someExpression _ ih => exact ih.append (Lies.nil _)
  | unconditional _ ih => exact ih
  | conditional _ _ _ _ _ ih₁ ih₂ ih₃ => exact (ih₁.close.append ih₂.close).append ih₃
  | assignName hname _ _ ih => exact ((Lies.nil _).refer .assign _ hname).swap ih.skip (Expr.direct_events _)
  | assignProperty _ _ _ _ _ ih₁ ih₂ => exact ih₁.close.close.close.swap ih₂ (Expr.direct_events _)
  | unassigned _ ih => exact ih
  | chain hchain _ _ ih₁ ih₂ =>
    rw [Nonterminal.events, hchain.events]
    exact ih₁.append ih₂
  | moreOperations _ _ _ _ ih₁ ih₂ => exact (ih₁.append ih₂).skip
  | unary _ _ ih => exact ih.skip
  | operand _ ih => exact ih
  | call _ _ ih₁ ih₂ =>
    rw [Nonterminal.events, events_suffixes]
    exact ih₁.append ih₂
  | callNone _ _ _ ih => exact ih.skip.skip
  | callSome _ _ _ _ _ ih₁ ih₂ => exact (ih₁.close.append ih₂).skip
  | property _ _ _ ih => exact ih.skip.skip
  | literal _ => exact (Lies.nil _).skip
  | this _ => exact (Lies.nil _).skip
  | emptyArray _ _ => exact (Lies.nil _).skip.skip
  | array _ _ _ ih => exact ih.close.skip
  | global _ _ => exact (Lies.nil _).skip.skip
  | @increment name first second _ i hname _ =>
    have hassign := (Orderly.nil [name, first, second]).refer .assign (i + 1) List.mem_cons_self hname
    exact ⟨[name, first, second], rfl, hassign.refer .var i List.mem_cons_self hname⟩
  | subscript hname _ _ _ ih => exact (ih.close.skip).refer .index _ hname
  | name hname _ => exact (Lies.nil _).refer .var _ hname
  | grouping _ _ _ ih => exact ih.close.skip
  | lastItem _ => exact (Lies.nil _).skip
  | moreItems _ _ _ ih => exact ih.skip.skip
  | lastNegative _ _ => exact (Lies.nil _).skip.skip
  | moreNegatives _ _ _ _ ih => exact ih.skip.skip.skip
  | _ => exact Lies.nil _

end Grammar

end Treewalk
