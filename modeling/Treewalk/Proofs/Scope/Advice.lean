import Mathlib.Data.List.Nodup
import Treewalk.Proofs.Scope.Bookkeeping
import Treewalk.Proofs.Token.Spans

/-!
What the check advises about, read off the outline of a program. When a scope ends, the check advises about the names of it
that no reference has meant so far. That no later one can mean them is what makes this exact: a name is meant only from
within its scope. So the advice about a scope is about those of its names that no reference in the whole program means.

The argument needs that a name is told from all others by the token that declares it.
-/

namespace Treewalk

/-- The names of a scope to advise about, in the order of the source, if these names are meant. -/
def Event.advised (meant : List Token) (scope : List Token) : List Token :=
  sortBy Scope.before (scope.filter fun t => !meant.contains t && !Scope.isDiscard t.lexeme)

namespace Environment

/-- The sheets of the scopes, if these names were referred to. -/
def marked (env : Environment) (meant : List Token) : List Sheet :=
  env.map fun scope => scope.map fun t => (t, meant.contains t)

/-- The names of each scope are spelled differently. -/
def Spelled (env : Environment) : Prop := ∀ scope ∈ env, (scope.map (·.lexeme)).Nodup

theorem mem_of_target? {env : Environment} {name : String} {t : Token} (h : env.target? name = some t) :
    t ∈ env.flatten := by
  obtain ⟨scope, hscope, hfind⟩ := List.exists_of_findSome?_eq_some h
  exact List.mem_flatten.mpr ⟨scope, hscope, List.mem_of_find?_eq_some hfind⟩

theorem marked_append_of_not_mem {env : Environment} {meant more : List Token} (h : ∀ t ∈ more, t ∉ env.flatten) :
    env.marked (meant ++ more) = env.marked meant := by
  refine List.map_congr_left fun scope hscope => List.map_congr_left fun t ht => ?_
  have hnot : t ∉ more := fun hmem => h t hmem (List.mem_flatten.mpr ⟨scope, hscope, ht⟩)
  simp [hnot]

theorem any_marked (scope meant : List Token) (name : String) :
    (scope.map fun t => (t, meant.contains t)).any (·.1.lexeme == name) = scope.any (·.lexeme == name) := by
  rw [List.any_map]
  rfl

/-- A name that is not meant is declared without a mark. -/
theorem marked_declare {env : Environment} {meant : List Token} {token : Token} (h : token ∉ meant) :
    (env.declare token).marked meant = Sheet.declareFirst token (env.marked meant) := by
  cases env with
  | nil => rfl
  | cons scope outer =>
    have hnot : meant.contains token = false := by simpa using h
    simp only [declare, marked, List.map_cons, Sheet.declareFirst, Sheet.declare, any_marked, addName]
    split
    · rfl
    · rw [List.map_append, List.map_singleton, hnot]

/-- A reference marks what it means. -/
theorem useFirst_marked {env : Environment} {name : String} {meant : List Token} (hspelled : env.Spelled)
    (hnodup : env.flatten.Nodup) :
    Sheet.useFirst name (env.marked meant) = env.marked (meant ++ (env.target? name).toList) := by
  induction env with
  | nil => rfl
  | cons scope outer ih =>
    rw [Spelled, List.forall_mem_cons] at hspelled
    rw [List.flatten_cons, List.nodup_append] at hnodup
    obtain ⟨hscope, houter⟩ := hspelled
    obtain ⟨-, hnodup, hdisjoint⟩ := hnodup
    have hsplit : ∀ more, (∀ t ∈ more, t ∉ scope) →
        marked (scope :: outer) (meant ++ more) =
          (scope.map fun t => (t, meant.contains t)) :: marked outer (meant ++ more) := by
      intro more hmore
      refine congrArg (· :: marked outer (meant ++ more)) (List.map_congr_left fun t ht => ?_)
      have hnot : t ∉ more := fun hmem => hmore t hmem ht
      simp [hnot]
    have hfold : ∀ used, marked (scope :: outer) used = (scope.map fun t => (t, used.contains t)) :: marked outer used :=
      fun _ => rfl
    rw [hfold meant, Sheet.useFirst, any_marked]
    cases hfind : scope.find? (·.lexeme == name) with
    | none =>
      have htarget : target? (scope :: outer) name = target? outer name := by
        simp only [target?, List.findSome?_cons, hfind]
      have hany : scope.any (·.lexeme == name) = false := by
        rw [List.any_eq_false]
        exact List.find?_eq_none.mp hfind
      rw [hany, htarget, hsplit, ← ih houter hnodup]
      · rfl
      · intro t ht hmem
        exact hdisjoint t hmem t (mem_of_target? (Option.mem_toList.mp ht)) rfl
    | some found =>
      have htarget : target? (scope :: outer) name = some found := by
        simp only [target?, List.findSome?_cons, hfind]
      have hmem := List.mem_of_find?_eq_some hfind
      have hlexeme : found.lexeme = name := by simpa using List.find?_some hfind
      have hany : scope.any (·.lexeme == name) = true :=
        List.any_eq_true.mpr ⟨found, hmem, beq_iff_eq.mpr hlexeme⟩
      have houter' : marked outer (meant ++ [found]) = marked outer meant := by
        refine marked_append_of_not_mem fun t ht hflat => ?_
        rw [List.mem_singleton.mp ht] at hflat
        exact hdisjoint found hmem found hflat rfl
      rw [hany, htarget, Option.toList_some, hfold, houter', if_pos rfl]
      refine congrArg (· :: marked outer meant) ?_
      rw [Sheet.use, List.map_map]
      refine List.map_congr_left fun t ht => ?_
      -- Of the names of one scope only the one that was found is spelled so.
      have hiff : t.lexeme = name ↔ t = found :=
        ⟨fun heq => List.inj_on_of_nodup_map hscope ht hmem (heq.trans hlexeme.symm), fun heq => heq ▸ hlexeme⟩
      by_cases heq : t = found
      · simp [heq, hlexeme]
      · simp [mt hiff.mp heq, heq]

end Environment

namespace Event

open Environment

/-! ### What can be meant -/

theorem mem_addName {scope : List Token} {token t : Token} (h : t ∈ addName scope token) : t ∈ scope ∨ t = token := by
  unfold addName at h
  split at h
  · exact Or.inl h
  · simpa using h

theorem mem_after {env : Environment} {e : Event} {t : Token} (h : t ∈ (e.after env).flatten) :
    t ∈ env.flatten ∨ t ∈ e.names := by
  cases e with
  | refer x => exact Or.inl h
  | scope events => exact Or.inl h
  | declare token =>
    cases env with
    | nil => exact Or.inl h
    | cons scope outer =>
      rcases List.mem_append.mp h with hscope | houter
      · rcases mem_addName hscope with hscope | rfl
        · exact Or.inl (List.mem_append_left _ hscope)
        · exact Or.inr List.mem_cons_self
      · exact Or.inl (List.mem_append_right _ houter)

mutual

/-- What is meant is a name around the event or in it. -/
theorem mem_of_mem_links : (e : Event) → (env : Environment) → ∀ x ∈ e.links env, x.2 ∈ env.flatten ∨ x.2 ∈ e.names
  | .declare _, _, _, hx => by cases hx
  | .refer y, env, x, hx => by
    obtain ⟨t, ht, rfl⟩ := List.mem_map.mp hx
    exact Or.inl (mem_of_target? (Option.mem_toList.mp ht))
  | .scope events, env, x, hx => mem_of_mem_allLinks events ([] :: env) x hx

theorem mem_of_mem_allLinks : (events : List Event) → (env : Environment) → ∀ x ∈ allLinks events env,
    x.2 ∈ env.flatten ∨ x.2 ∈ allNames events
  | [], _, _, hx => by cases hx
  | e :: rest, env, x, hx => by
    rcases List.mem_append.mp hx with hx | hx
    · exact (mem_of_mem_links e env x hx).imp_right (List.mem_append_left _)
    · rcases mem_of_mem_allLinks rest (e.after env) x hx with hmem | hmem
      · exact (mem_after hmem).imp_right (List.mem_append_left _)
      · exact Or.inr (List.mem_append_right _ hmem)

end

theorem mem_of_mem_targets {events : List Event} {env : Environment} {t : Token} (h : t ∈ targets events env) :
    t ∈ env.flatten ∨ t ∈ allNames events := by
  obtain ⟨x, hx, rfl⟩ := List.mem_map.mp h
  exact mem_of_mem_allLinks events env x hx

theorem allNames_singleton (e : Event) : allNames [e] = e.names := List.append_nil _

theorem targets_cons (e : Event) (rest : List Event) (env : Environment) :
    targets (e :: rest) env = targets [e] env ++ targets rest (e.after env) := by
  simp [targets, allLinks]

/-! ### The names of a scope -/

theorem mem_of_mem_foldl_addName {tokens scope : List Token} {t : Token} (h : t ∈ tokens.foldl addName scope) :
    t ∈ scope ∨ t ∈ tokens := by
  induction tokens generalizing scope with
  | nil => exact Or.inl h
  | cons token rest ih =>
    rcases ih h with hmem | hmem
    · exact (mem_addName hmem).imp_right (List.mem_cons.mpr ∘ Or.inl)
    · exact Or.inr (List.mem_cons_of_mem token hmem)

theorem direct_subset (events : List Event) : direct events ⊆ allNames events := by
  intro t ht
  obtain ⟨e, he, hsome⟩ := List.mem_filterMap.mp ht
  induction events with
  | nil => cases he
  | cons first rest ih =>
    rcases List.mem_cons.mp he with rfl | he
    · cases e with
      | declare token =>
        cases hsome
        exact List.mem_append_left _ List.mem_cons_self
      | refer x => cases hsome
      | scope inner => cases hsome
    · exact List.mem_append_right _ (ih (List.mem_filterMap.mpr ⟨e, he, hsome⟩) he)

mutual

theorem scopes_subset : (e : Event) → e.scopes.flatten ⊆ e.names
  | .declare _, _, ht => by cases ht
  | .refer _, _, ht => by cases ht
  | .scope events, t, ht => by
    rw [scopes, List.flatten_append, List.mem_append, List.flatten_singleton] at ht
    rcases ht with ht | ht
    · exact allScopes_subset events ht
    · rcases mem_of_mem_foldl_addName ht with ht | ht
      · cases ht
      · exact direct_subset events ht

theorem allScopes_subset : (events : List Event) → (allScopes events).flatten ⊆ allNames events
  | [], _, ht => by cases ht
  | e :: rest, t, ht => by
    rw [allScopes, List.flatten_append, List.mem_append] at ht
    exact List.mem_append.mpr (ht.imp (scopes_subset e ·) (allScopes_subset rest ·))

end

/-! ### The advice -/

/-- The names around the events and those in them are all different, and those of one scope are spelled differently. -/
structure Apart (env : Environment) (events : List Event) : Prop where
  spelled : env.Spelled
  nodup : (env.flatten ++ allNames events).Nodup

namespace Apart

variable {env : Environment} {e : Event} {rest events : List Event}

theorem names_not_mem (h : Apart env events) {t : Token} (ht : t ∈ allNames events) : t ∉ env.flatten := fun hmem =>
  (List.nodup_append.mp h.nodup).2.2 t hmem t ht rfl

theorem rest_not_mem (h : Apart env (e :: rest)) {t : Token} (ht : t ∈ allNames rest) :
    ¬(t ∈ env.flatten ∨ t ∈ e.names) := by
  rintro (hmem | hmem)
  · exact h.names_not_mem (List.mem_append_right _ ht) hmem
  · exact (List.nodup_append.mp (List.nodup_append.mp h.nodup).2.1).2.2 t hmem t ht rfl

theorem inScope (h : Apart env (.scope events :: rest)) : Apart ([] :: env) events where
  spelled := List.forall_mem_cons.mpr ⟨List.nodup_nil, h.spelled⟩
  nodup := h.nodup.sublist (List.Sublist.append (List.Sublist.refl _) (List.sublist_append_left _ _))

theorem after (h : Apart env (e :: rest)) : Apart (e.after env) rest := by
  have hrest : (env.flatten ++ allNames rest).Nodup :=
    h.nodup.sublist (List.Sublist.append (List.Sublist.refl _) (List.sublist_append_right _ _))
  cases e with
  | refer x => exact ⟨h.spelled, hrest⟩
  | scope inner => exact ⟨h.spelled, hrest⟩
  | declare token =>
    cases env with
    | nil => exact ⟨h.spelled, hrest⟩
    | cons scope outer =>
      simp only [Event.after, Environment.declare, addName]
      split
      · exact ⟨h.spelled, hrest⟩
      · next hnew =>
        obtain ⟨hscope, houter⟩ := List.forall_mem_cons.mp h.spelled
        constructor
        · refine List.forall_mem_cons.mpr ⟨?_, houter⟩
          rw [List.map_append, List.map_singleton, List.nodup_append]
          refine ⟨hscope, by simp, fun name hname other hother heq => hnew ?_⟩
          obtain ⟨t, ht, rfl⟩ := List.mem_map.mp hname
          rw [List.any_eq_true]
          exact ⟨t, ht, beq_iff_eq.mpr (heq.trans (List.mem_singleton.mp hother))⟩
        · refine (List.Perm.nodup_iff ?_).mp h.nodup
          simp only [List.flatten_cons, allNames, names, List.append_assoc]
          exact (List.perm_append_left_iff scope).mpr (List.perm_middle.trans (List.Perm.refl _))

end Apart

/-- What is meant in a scope that has ended is meant within it. -/
theorem mem_targets_of_mem_scopes {env : Environment} {e : Event} {rest : List Event} (h : Apart env (e :: rest))
    {t : Token} (ht : t ∈ e.scopes.flatten) : t ∈ targets (e :: rest) env ↔ t ∈ targets [e] env := by
  rw [targets_cons, List.mem_append, or_iff_left]
  intro hmem
  have hname := scopes_subset e ht
  rcases mem_of_mem_targets hmem with hafter | hrest
  · cases e with
    | declare token => cases ht
    | refer x => cases ht
    | scope inner => exact h.names_not_mem (List.mem_append_left _ hname) hafter
  · exact h.rest_not_mem hrest (Or.inr hname)

/-- What is meant in a scope that is still to come is not meant before. -/
theorem mem_targets_of_mem_allScopes {env : Environment} {e : Event} {rest : List Event} (h : Apart env (e :: rest))
    {t : Token} (ht : t ∈ (allScopes rest).flatten) :
    t ∈ targets (e :: rest) env ↔ t ∈ targets rest (e.after env) := by
  rw [targets_cons, List.mem_append, or_iff_right]
  intro hmem
  have hbefore := mem_of_mem_targets hmem
  rw [allNames_singleton] at hbefore
  exact h.rest_not_mem (allScopes_subset rest ht) hbefore

mutual

/-- What an event does to the books, if the names so far meant are known, and those meant in all. -/
theorem book_marked : (e : Event) → (advice : List Token) → {env : Environment} → {meant all : List Token} → Apart env [e] →
    (∀ t ∈ meant, t ∉ e.names) → (∀ t ∈ e.scopes.flatten, t ∈ all ↔ t ∈ targets [e] env) →
    e.book ⟨env.marked meant, advice⟩ =
      ⟨(e.after env).marked (meant ++ targets [e] env), advice ++ e.scopes.flatMap (advised all)⟩
  | .declare token, advice, env, meant, all, _, hmeant, _ => by
    have hnot : token ∉ meant := fun hmem => hmeant token hmem List.mem_cons_self
    simp only [book, ← marked_declare hnot, after, scopes, List.flatMap_nil, List.append_nil, targets, allLinks, links,
      List.map_nil]
  | .refer x, advice, env, meant, all, h, _, _ => by
    have hnodup := (List.nodup_append.mp h.nodup).1
    have htargets : targets [.refer x] env = (env.target? x.token.lexeme).toList := by
      cases henv : env.target? x.token.lexeme <;> simp [targets, allLinks, links, henv]
    simp only [book, useFirst_marked h.spelled hnodup, after, scopes, List.flatMap_nil, List.append_nil, htargets]
  | .scope events, advice, env, meant, all, h, hmeant, hall => by
    have htargets : targets [.scope events] env = targets events ([] :: env) := by
      simp [targets, allLinks, links]
    rw [htargets] at hall ⊢
    rw [scopes, List.flatten_append, List.flatten_singleton] at hall
    have hbooked : bookAll events ⟨[] :: env.marked meant, advice⟩ =
        ⟨marked (bindings events :: env) (meant ++ targets events ([] :: env)),
          advice ++ (allScopes events).flatMap (advised all)⟩ := by
      rw [bindings, ← foldl_after]
      exact bookAll_marked events advice h.inScope hmeant fun t ht => hall t (List.mem_append_left _ ht)
    have hunused : Sheet.unused ((bindings events).map fun t => (t, (meant ++ targets events ([] :: env)).contains t)) =
        advised all (bindings events) := by
      rw [Sheet.unused, List.filter_map, List.map_map, advised]
      refine congrArg (sortBy Scope.before) ?_
      rw [show ((fun x : Token × Bool => x.1) ∘ fun t => (t, (meant ++ targets events ([] :: env)).contains t)) = id from rfl,
        List.map_id]
      refine List.filter_congr fun t ht => ?_
      have hname : t ∈ allNames events := by
        rcases mem_of_mem_foldl_addName ht with hmem | hmem
        · cases hmem
        · exact direct_subset events hmem
      have hnot : t ∉ meant := fun hmem => hmeant t hmem hname
      have hiff := hall t (List.mem_append_right _ ht)
      simp [hnot, hiff]
    rw [book, hbooked, marked, List.map_cons, Ledger.close, scopes, List.flatMap_append, List.flatMap_singleton,
      ← List.append_assoc, ← hunused]
    rfl

theorem bookAll_marked : (events : List Event) → (advice : List Token) → {env : Environment} → {meant all : List Token} →
    Apart env events → (∀ t ∈ meant, t ∉ allNames events) →
    (∀ t ∈ (allScopes events).flatten, t ∈ all ↔ t ∈ targets events env) →
    bookAll events ⟨env.marked meant, advice⟩ =
      ⟨(events.foldl after env).marked (meant ++ targets events env), advice ++ (allScopes events).flatMap (advised all)⟩
  | [], advice, env, meant, all, _, _, _ => by
    simp only [bookAll, List.foldl_nil, targets, allLinks, List.map_nil, List.append_nil, allScopes, List.flatMap_nil]
  | e :: rest, advice, env, meant, all, h, hmeant, hall => by
    have hfirst : Apart env [e] :=
      ⟨h.spelled, h.nodup.sublist (List.Sublist.append (List.Sublist.refl _)
        (List.Sublist.append (List.Sublist.refl _) (List.nil_sublist _)))⟩
    rw [allScopes, List.flatten_append] at hall
    have hbook := book_marked e advice hfirst (fun t ht hmem => hmeant t ht (List.mem_append_left _ hmem)) fun t ht =>
      (hall t (List.mem_append_left _ ht)).trans (mem_targets_of_mem_scopes h ht)
    have hmeant' : ∀ t ∈ meant ++ targets [e] env, t ∉ allNames rest := by
      intro t ht hmem
      rcases List.mem_append.mp ht with ht | ht
      · exact hmeant t ht (List.mem_append_right _ hmem)
      · have hbefore := mem_of_mem_targets ht
        rw [allNames_singleton] at hbefore
        exact h.rest_not_mem hmem hbefore
    rw [bookAll, hbook, bookAll_marked rest _ h.after hmeant' fun t ht =>
      (hall t (List.mem_append_right _ ht)).trans (mem_targets_of_mem_allScopes h ht)]
    rw [List.foldl_cons, targets_cons e rest env, allScopes, List.flatMap_append, List.append_assoc meant,
      List.append_assoc advice]

end

end Event

/-- The check advises, scope by scope as they end, about the names that no reference in the program means. -/
theorem Stmt.advised_check (distances : Distances) {program : List Stmt} (hshaped : Stmt.AllShaped program)
    (hnamed : Stmt.AllNamed program) (hplain : Event.Plain (Stmt.allEvents program))
    (hnodup : (Event.allNames (Stmt.allEvents program)).Nodup) :
    (Stmt.check distances program).findings.filterMap Finding.advised? =
      (Event.allScopes (Stmt.allEvents program)).flatMap (Event.advised (Event.targets (Stmt.allEvents program) [])) := by
  have hbooks := (Stmt.booksAll program hshaped hnamed hplain [] { distances } nofun).2.1
  have hapart : Event.Apart [] (Stmt.allEvents program) := ⟨nofun, hnodup⟩
  have hmeant : ∀ t ∈ ([] : List Token), t ∉ Event.allNames (Stmt.allEvents program) := nofun
  exact congrArg Ledger.advice (hbooks.trans (Event.bookAll_marked _ [] hapart hmeant fun _ _ => Iff.rfl))

/-! ### Order -/

namespace Scope

theorem before_iff {t u : Token} : before t u = true ↔ t.line < u.line ∨ t.line = u.line ∧ t.offset ≤ u.offset := by
  simp [before]

theorem before_trans {t u v : Token} (htu : before t u = true) (huv : before u v = true) : before t v = true := by
  rw [before_iff] at *
  omega

theorem before_of_not {t u : Token} (h : ¬before t u = true) : before u t = true := by
  rw [before_iff] at *
  omega

theorem pairwise_insertBy (t : Token) {tokens : List Token} (h : tokens.Pairwise (before · ·)) :
    (insertBy before t tokens).Pairwise (before · ·) := by
  induction tokens with
  | nil => exact List.pairwise_singleton _ _
  | cons u rest ih =>
    rw [insertBy]
    obtain ⟨hu, hrest⟩ := List.pairwise_cons.mp h
    split
    · next htu =>
      refine List.pairwise_cons.mpr ⟨List.forall_mem_cons.mpr ⟨htu, fun v hv => before_trans htu (hu v hv)⟩, h⟩
    · next hnot =>
      refine List.pairwise_cons.mpr ⟨fun v hv => ?_, ih hrest⟩
      rcases List.mem_cons.mp ((insertBy_perm before t rest).mem_iff.mp hv) with rfl | hv
      · exact before_of_not hnot
      · exact hu v hv

theorem pairwise_sortBy (tokens : List Token) : (sortBy before tokens).Pairwise (before · ·) := by
  induction tokens with
  | nil => exact .nil
  | cons t rest ih => exact pairwise_insertBy t ih

/-- In whatever order tokens of different places are given, they are sorted into the order of the source. -/
theorem sortBy_eq {tokens order : List Token} (h : tokens.Pairwise Token.Precedes) (hperm : order.Perm tokens) :
    sortBy before order = tokens := by
  have hbefore : tokens.Pairwise (before · ·) := h.imp fun hprecedes => before_iff.mpr (by
    obtain ⟨hoffset, hline⟩ := hprecedes
    omega)
  have hall := (sortBy_perm before order).trans hperm
  -- Two different tokens of the source come before each other in one direction only.
  let single (t u : Token) : Prop := before t u = true → before u t = true → t = u
  have hsymm : Std.Symm single := ⟨fun t u h hut htu => (h htu hut).symm⟩
  have hsingle : tokens.Pairwise single := h.imp fun hprecedes _ hback => by
    rw [before_iff] at hback
    obtain ⟨hoffset, hline⟩ := hprecedes
    omega
  refine List.Perm.eq_of_pairwise (fun t u ht hu => ?_) (pairwise_sortBy order) hbefore hall
  exact hsingle.forall_of_forall (fun t _ _ _ => rfl) (hall.mem_iff.mp ht) hu

end Scope

/-- The names of a scope to advise about, in whatever order the scope is gone through. -/
theorem Event.advised_eq {scope order : List Token} (h : scope.Pairwise Token.Precedes) (hperm : order.Perm scope)
    (meant : List Token) :
    advised meant order = scope.filter fun t => !meant.contains t && !Scope.isDiscard t.lexeme :=
  Scope.sortBy_eq (h.filter _) (hperm.filter _)

end Treewalk
