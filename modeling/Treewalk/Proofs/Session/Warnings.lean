import Treewalk.Proofs.Grammar.Order
import Treewalk.Proofs.Scope.Advice
import Treewalk.Proofs.Session.Checking

/-!
Warnings about names that are not used. A source that can be read gets, scope by scope as they end, one warning for each
local name that no reference in the program means, unless the name is one to discard. What a reference means is read off
the outline of the program. The entries of a scope may be gone through in any order: tokens have places of their own, and
the warnings come in the order of these.
-/

namespace Treewalk

open Grammar

namespace Event

/-- The entries of a scope when it ends, if these names are meant. -/
def entries (meant scope : List Token) : Scope := scope.map fun t => ⟨t, true, meant.contains t⟩

theorem unused_of_perm {meant scope : List Token} {order : Scope} (h : order.Perm (entries meant scope))
    (hscope : scope.Pairwise Token.Precedes) :
    order.unused = scope.filter fun t => !meant.contains t && !Scope.isDiscard t.lexeme := by
  refine Scope.sortBy_eq (hscope.filter _) (((h.filter _).map _).trans (List.Perm.of_eq ?_))
  rw [entries, List.filter_map, List.map_map]
  exact List.map_id _

theorem unused_of_perms {meant : List Token} {scopes : List (List Token)} {orders : List Scope}
    (h : List.Forall₂ (fun scope order => order.Perm (entries meant scope)) scopes orders)
    (hscopes : ∀ scope ∈ scopes, scope.Pairwise Token.Precedes) :
    orders.flatMap Scope.unused =
      scopes.flatMap (·.filter fun t => !meant.contains t && !Scope.isDiscard t.lexeme) := by
  induction h with
  | nil => rfl
  | cons hfirst _ ih =>
    rw [List.forall_mem_cons] at hscopes
    rw [List.flatMap_cons, List.flatMap_cons, unused_of_perm hfirst hscopes.1, ih hscopes.2]

/-! ### Each name has one scope -/

theorem count_bindings_le (events : List Event) (t : Token) : (bindings events).count t ≤ (direct events).count t :=
  (foldl_addName_sublist (direct events) []).count_le t

mutual

theorem count_scopes_le : (e : Event) → (t : Token) → e.scopes.flatten.count t + (direct [e]).count t ≤ e.names.count t
  | .declare _, _ => Nat.le_of_eq (Nat.zero_add _)
  | .refer _, _ => Nat.le_refl _
  | .scope events, t => by
    have hall := count_allScopes_le events t
    have hbindings := count_bindings_le events t
    rw [scopes, List.flatten_append, List.flatten_singleton, List.count_append, names]
    exact Nat.le_trans (Nat.add_le_add_left hbindings _) hall

theorem count_allScopes_le : (events : List Event) → (t : Token) →
    (allScopes events).flatten.count t + (direct events).count t ≤ (allNames events).count t
  | [], _ => Nat.le_refl _
  | e :: rest, t => by
    have hfirst := count_scopes_le e t
    have hrest := count_allScopes_le rest t
    have hdirect : direct (e :: rest) = direct [e] ++ direct rest := direct_append [e] rest
    simp only [allScopes, List.flatten_append, allNames, hdirect, List.count_append]
    omega

end

/-- If each token declares one name, it does so in one scope. -/
theorem nodup_allScopes {events : List Event} (h : (allNames events).Nodup) : (allScopes events).flatten.Nodup := by
  rw [List.nodup_iff_count_le_one] at h ⊢
  intro t
  exact Nat.le_trans (Nat.le_trans (Nat.le_add_right _ _) (count_allScopes_le events t)) (h t)

end Event

/-! ### Programs -/

/-- How the outline of a program lies in its source. -/
structure Stmt.LaidOut (program : List Stmt) : Prop where
  shaped : Stmt.AllShaped program
  named : Stmt.AllNamed program
  plain : Event.Plain (Stmt.allEvents program)
  nodup : (Event.allNames (Stmt.allEvents program)).Nodup
  ordered : ∀ scope ∈ Event.allScopes (Stmt.allEvents program), scope.Pairwise Token.Precedes

theorem Program.laidOut {n j : NodeId} {source : List UInt8} {program : List Stmt}
    (h : Program.ofSource n source = ⟨program, [], j⟩) : Stmt.LaidOut program := by
  have hderives := Program.derives h
  obtain ⟨taken, htaken, hlies⟩ := hderives.lies
  rw [List.append_nil] at htaken
  subst htaken
  have hsublist : (Point.start n (Token.good (Token.scan source))).ahead.Sublist (Token.good (Token.scan source)) :=
    List.takeWhile_sublist _
  have hordered := (Token.pairwise_scan source).sublist hsublist
  refine ⟨hderives.shaped, hderives.named_source, fun t ht => ?_, ?_, fun scope hscope => ?_⟩
  · obtain ⟨hmem, hidentifier⟩ := hlies.names t ht
    exact (Token.spelled_scan t (hsublist.subset hmem)).notReceiver hidentifier
  · have hnodup : (Point.start n (Token.good (Token.scan source))).ahead.Nodup :=
      hordered.imp fun {t u} hprecedes (heq : t = u) => Nat.ne_of_lt hprecedes.1 (congrArg Token.offset heq)
    rw [List.nodup_iff_count_le_one] at hnodup ⊢
    exact fun t => Nat.le_trans (hlies.once t) (hnodup t)
  · exact hordered.sublist (hlies.scopes scope hscope)

theorem Session.ofSource_of_parse {s s' : Session} {source : List UInt8} {program : List Stmt} {d : Diagnostics}
    (h : s.parse source = (some program, d, s')) :
    Program.ofSource s.nextId source = ⟨program, [], s'.nextId⟩ ∧ s'.machine = s.machine := by
  rcases Program.read_or_reports s.nextId source with ⟨xs, n, hread⟩ | hreports
  · rw [Session.parse_of_read hread] at h
    cases h
    exact ⟨hread, rfl⟩
  · have hnone := Session.parse_of_reports hreports
    rw [h] at hnone
    cases hnone

/-- The advice of a check. -/
theorem Resolver.filter_isAdvice (r : Resolver) :
    (r.findings.map (·.diagnostic)).filter (·.isAdvice) =
      (r.findings.filterMap Finding.advised?).map fun t => .unusedVariable t.lexeme t.line := by
  induction r.findings with
  | nil => rfl
  | cons x rest ih =>
    cases x with
    | fault token cause => exact ih
    | unused token => exact congrArg (Diagnostic.unusedVariable token.lexeme token.line :: ·) ih

/-- The warnings about a source that can be read: scope by scope, an inner one before the one around it, and in each scope
in the order of the source, they name those local names that are not to be discarded and that no reference in the program
means. What references mean is what the check finds for them; and the order in which the entries of a scope are gone
through does not matter. -/
theorem unused_warnings_are_exact {s s' : Session} {source : List UInt8} {program : List Stmt} {d : Diagnostics}
    (hparse : s.parse source = (some program, d, s')) :
    let events := Stmt.allEvents program
    let scopes := Event.allScopes events
    let meant := Event.targets events []
    let warned (t : Token) : Bool := !meant.contains t && !Scope.isDiscard t.lexeme
    (s'.resolve program).1.filter (·.isAdvice) =
        (scopes.flatMap (·.filter warned)).map (fun t => .unusedVariable t.lexeme t.line) ∧
      scopes.flatten.Nodup ∧
      (∀ scope ∈ scopes, scope.Pairwise Token.Precedes) ∧
      (Stmt.allVisits [] program { distances := s'.machine.distances }).filterMap Visit.link? =
        Event.allLinks events [] ∧
      ∀ orders : List Scope,
        List.Forall₂ (fun scope order => order.Perm (Event.entries meant scope)) scopes orders →
        orders.flatMap Scope.unused = scopes.flatMap (·.filter warned) := by
  intro events scopes meant warned
  have hlaid := Program.laidOut (Session.ofSource_of_parse hparse).1
  refine ⟨?_, Event.nodup_allScopes hlaid.nodup, hlaid.ordered, ?_, fun orders horders => ?_⟩
  · have hadvised := Stmt.advised_check s'.machine.distances hlaid.shaped hlaid.named hlaid.plain hlaid.nodup
    have hsorted : scopes.flatMap (Event.advised meant) = scopes.flatMap (·.filter warned) :=
      List.flatMap_congr fun scope hscope => Event.advised_eq (hlaid.ordered scope hscope) (List.Perm.refl _) meant
    rw [Session.resolve, Resolver.filter_isAdvice, hadvised, hsorted]
  · exact (Stmt.booksAll program hlaid.shaped hlaid.named hlaid.plain [] { distances := s'.machine.distances } nofun).2.2
  · exact Event.unused_of_perms horders hlaid.ordered

namespace Unused

/-- A function that does not use its second parameter. An inner name of that spelling is not used either, one more is to be
discarded, and the first parameter, which is used, is declared again. -/
def source : List UInt8 := Text.encode "fun f(a, b) \x7b\n  \x7b var b = a; var _c; \x7d\n  var a;\n\x7d"

def name (lexeme : String) (line offset : Nat) : Token := ⟨.identifier, lexeme, line, offset⟩

def mark (symbol : Symbol) (line offset : Nat) : Token :=
  ⟨.symbol symbol, symbol.spelling, line, offset⟩

def statement : Stmt :=
  .function ⟨name "f" 1 4, [name "a" 1 6, name "b" 1 9],
    [.block [.varDecl (name "b" 2 22) (some (.var 0 (name "a" 2 26))), .varDecl (name "_c" 2 33) none],
      .varDecl (name "a" 3 45) none]⟩

theorem scan_source : Token.scan source = [mark .kwFun 1 0, name "f" 1 4, mark .leftParen 1 5, name "a" 1 6,
    mark .comma 1 7, name "b" 1 9, mark .rightParen 1 10, mark .leftBrace 1 12, mark .leftBrace 2 16, mark .kwVar 2 18,
    name "b" 2 22, mark .equal 2 24, name "a" 2 26, mark .semicolon 2 27, mark .kwVar 2 29, name "_c" 2 33,
    mark .semicolon 2 35, mark .rightBrace 2 37, mark .kwVar 3 41, name "a" 3 45, mark .semicolon 3 46,
    mark .rightBrace 4 48, ⟨.finish, "", 4, 49⟩].map .ok := by
  decide +kernel

theorem parse_source : ({} : Session).parse source = (some [statement], {}, { nextId := 1 }) := by
  simp only [Session.parse, Program.ofSource, scan_source]
  rfl

end Unused

theorem unused_names_of_function :
    ({} : Session).parse Unused.source = (some [Unused.statement], {}, { nextId := 1 }) ∧
      (Session.resolve { nextId := 1 } [Unused.statement]).1.filter (·.isAdvice) =
        [.unusedVariable "b" 2, .unusedVariable "b" 1] :=
  ⟨Unused.parse_source, (unused_warnings_are_exact Unused.parse_source).1.trans (by decide)⟩

end Treewalk
