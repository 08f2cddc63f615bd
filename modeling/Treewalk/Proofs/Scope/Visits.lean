import Treewalk.Proofs.Grammar.Trees
import Treewalk.Scope.Resolver

/-!
The walk of the check through a program, as the list of its visits: each reference with the scopes that are open when
it is met, and the variables whose initializers are around it. The walk leaves the names of the open scopes as they
are, except that a statement may declare its own name; faults are never taken back; and the distances that come out
are those of the visits.
-/

namespace Treewalk

/-- A variable whose initializer is being checked: its name, and the number of scopes that are open where it is
declared, the one that declares it included. -/
structure Initializing where
  name : String
  depth : Nat
deriving DecidableEq, Repr

/-- A visit of the check: the reference, the open scopes, and the variables whose initializers are around it. -/
structure Visit where
  reference : Reference
  scopes : List Scope
  initializing : List Initializing
deriving DecidableEq, Repr

/-- The name that a visit refers to. -/
def Visit.name (v : Visit) : String := v.reference.token.lexeme

/-- The reference stands in the initializer of the variable that it means, given its distance. -/
def Visit.InOwnInitializer (v : Visit) (distance : Nat) : Prop :=
  ∃ x ∈ v.initializing, x.name = v.name ∧ x.depth + distance = v.scopes.length

/-- What a visit leaves in the log. -/
def Visit.lookup (v : Visit) : Lookup :=
  ⟨v.reference.id, v.name, Resolver.distance? v.scopes v.name⟩

/-- Records what a visit finds. -/
def Distances.note (d : Distances) (v : Visit) : Distances :=
  match Resolver.distance? v.scopes v.name with
  | some distance => d.record v.reference.id distance
  | none => d

theorem Distances.find?_record (d : Distances) (id key : NodeId) (distance : Nat) :
    (d.record id distance).find? key = if id = key then some distance else d.find? key := by
  simp [find?, record, Std.TreeMap.getElem?_insert]

theorem Distances.find?_note (d : Distances) (v : Visit) (key : NodeId) :
    (d.note v).find? key =
      if v.reference.id = key then (Resolver.distance? v.scopes v.name).or (d.find? key) else d.find? key := by
  unfold note
  cases Resolver.distance? v.scopes v.name with
  | none => simp
  | some distance => simp [find?_record]

/-- Distances of nodes that are not visited stay as they are. -/
theorem Distances.find?_foldl_note_of_notMem {visits : List Visit} {key : NodeId} (d : Distances)
    (h : key ∉ visits.map (·.reference.id)) : (visits.foldl note d).find? key = d.find? key := by
  induction visits generalizing d with
  | nil => rfl
  | cons v rest ih =>
    rw [List.map_cons, List.mem_cons, not_or] at h
    rw [List.foldl_cons, ih (d.note v) h.2, find?_note, if_neg fun heq => h.1 heq.symm]

/-- Nodes that are visited once, and have no distance yet, get that of their visit. -/
theorem Distances.find?_foldl_note_of_mem {visits : List Visit} {d : Distances} {v : Visit} (hv : v ∈ visits)
    (hnodup : (visits.map (·.reference.id)).Nodup) (hnone : d.find? v.reference.id = none) :
    (visits.foldl note d).find? v.reference.id = Resolver.distance? v.scopes v.name := by
  induction visits generalizing d with
  | nil => cases hv
  | cons w rest ih =>
    rw [List.map_cons, List.nodup_cons] at hnodup
    rw [List.foldl_cons]
    rcases List.mem_cons.mp hv with rfl | hv
    · rw [find?_foldl_note_of_notMem _ hnodup.1, find?_note, if_pos rfl, hnone, Option.or_none]
    · refine ih hv hnodup.2 ?_
      rw [find?_note, if_neg, hnone]
      exact fun heq => hnodup.1 (heq ▸ List.mem_map_of_mem hv)

namespace Resolver

/-- The state in which the body of a routine is checked. -/
def enter (r : Resolver) (kind : Enclosing) (params : List Token) : Resolver :=
  params.foldl introduce { r with enclosing := kind, loops := 0 }.openScope

/-- The state behind the superclass of a class. -/
def afterSuperclass (r : Resolver) (name : Token) (parent : Option Expr) : Resolver :=
  let r := { r with inClass := true }.introduce name
  match parent with
  | none => r
  | some e =>
    let own :=
      match e with
      | .var _ token => if token.lexeme == name.lexeme then r.refuse token .inheritsItself else r
      | _ => r
    e.resolve own

end Resolver

mutual

/-- The visits of the check in an expression. -/
def Expr.visits : List Initializing → Expr → Resolver → List Visit
  | _, .literal _, _ => []
  | _, .array _ _, _ => []
  | around, .unary _ right, r => right.visits around r
  | around, .binary left _ right, r => left.visits around r ++ right.visits around (left.resolve r)
  | around, .logical left _ right, r => left.visits around r ++ right.visits around (left.resolve r)
  | around, .grouping inner, r => inner.visits around r
  | around, .var id name, r => [⟨⟨.var, id, name⟩, r.scopes, around⟩]
  | _, .global _, _ => []
  | around, .assign id name value, r =>
    value.visits around r ++ [⟨⟨.assign, id, name⟩, (value.resolve r).scopes, around⟩]
  | around, .ternary condition _ yes no, r =>
    condition.visits around r ++ yes.visits around (condition.resolve r)
      ++ no.visits around (yes.resolve (condition.resolve r))
  | around, .call callee _ arguments, r =>
    callee.visits around r ++ Expr.allVisits around arguments (callee.resolve r)
  | around, .lambda routine, r => routine.visits around .function r
  | around, .get object _, r => object.visits around r
  | around, .set object _ value, r => value.visits around r ++ object.visits around (value.resolve r)
  | around, .this id keyword, r => [⟨⟨.this, id, keyword⟩, r.scopes, around⟩]
  | around, .subscript id name index, r =>
    ⟨⟨.index, id, name⟩, r.scopes, around⟩ :: index.visits around ((r.checkRead name).refer id name)

/-- The visits in expressions. -/
def Expr.allVisits : List Initializing → List Expr → Resolver → List Visit
  | _, [], _ => []
  | around, e :: rest, r => e.visits around r ++ Expr.allVisits around rest (e.resolve r)

/-- The visits in a statement. -/
def Stmt.visits : List Initializing → Stmt → Resolver → List Visit
  | around, .expression value, r => value.visits around r
  | around, .print _ values, r => Expr.allVisits around values r
  | _, .varDecl _ none, _ => []
  | around, .varDecl name (some value), r =>
    value.visits (⟨name.lexeme, r.scopes.length⟩ :: around) (r.declare name)
  | around, .block body, r => Stmt.allVisits around body r.openScope
  | around, .ifElse condition yes none, r => condition.visits around r ++ yes.visits around (condition.resolve r)
  | around, .ifElse condition yes (some no), r =>
    condition.visits around r ++ yes.visits around (condition.resolve r)
      ++ no.visits around (yes.resolve (condition.resolve r))
  | around, .whileLoop condition body, r =>
    condition.visits around r
      ++ body.visits around { condition.resolve r with loops := (condition.resolve r).loops + 1 }
  | around, .function routine, r => routine.visits around .function (r.introduce routine.name)
  | _, .breakLoop _, _ => []
  | _, .returnValue _ none, _ => []
  | around, .returnValue keyword (some value), r =>
    value.visits around (if r.enclosing = .none then r.refuse keyword .returnOutsideFunction else r)
  | around, .classDecl name none methods, r =>
    Routine.methodVisits around methods ((r.afterSuperclass name none).openReceiver name)
  | around, .classDecl name (some parent) methods, r =>
    parent.visits around ({ r with inClass := true }.introduce name)
      ++ Routine.methodVisits around methods ((r.afterSuperclass name (some parent)).openReceiver name)
  | _, .useLibrary _ _, _ => []

/-- The visits in statements. -/
def Stmt.allVisits : List Initializing → List Stmt → Resolver → List Visit
  | _, [], _ => []
  | around, s :: rest, r => s.visits around r ++ Stmt.allVisits around rest (s.resolve r)

/-- The visits in the body of a routine. -/
def Routine.visits : List Initializing → Enclosing → Routine → Resolver → List Visit
  | around, kind, ⟨_, params, body⟩, r => Stmt.allVisits around body (r.enter kind params)

/-- The visits in the bodies of methods. -/
def Routine.methodVisits : List Initializing → List Routine → Resolver → List Visit
  | _, [], _ => []
  | around, m :: rest, r =>
    let kind := if m.name.lexeme == initializerName then .initializer else .method
    m.visits around kind r ++ Routine.methodVisits around rest (m.resolve kind r)

end

/-! ### Names of the open scopes -/

/-- The names of the open scopes with one more in the innermost, unless it is there. -/
def declareName (name : String) : List (List String) → List (List String)
  | [] => []
  | scope :: outer => (if name ∈ scope then scope else scope ++ [name]) :: outer

/-- The names of the open scopes behind a statement. -/
def declareIn (names : List (List String)) : Option Token → List (List String)
  | none => names
  | some token => declareName token.lexeme names

@[simp] theorem tail_declareName (name : String) (names : List (List String)) :
    (declareName name names).tail = names.tail := by
  cases names <;> rfl

@[simp] theorem length_declareName (name : String) (names : List (List String)) :
    (declareName name names).length = names.length := by
  cases names <;> rfl

@[simp] theorem tail_declareIn (names : List (List String)) (token? : Option Token) :
    (declareIn names token?).tail = names.tail := by
  cases token? <;> simp [declareIn]

theorem tail_foldl_declareIn (body : List Stmt) (names : List (List String)) :
    (body.foldl (fun names s => declareIn names s.declared?) names).tail = names.tail := by
  induction body generalizing names with
  | nil => rfl
  | cons s rest ih => rw [List.foldl_cons, ih, tail_declareIn]

theorem tail_foldl_declareName (params : List Token) (names : List (List String)) :
    (params.foldl (fun names p => declareName p.lexeme names) names).tail = names.tail := by
  induction params generalizing names with
  | nil => rfl
  | cons p rest ih => rw [List.foldl_cons, ih, tail_declareName]

/-- Parameters are declared in one scope, and nothing else is. -/
theorem exists_foldl_declareName (params : List Token) (scope : List String) (outer : List (List String)) :
    ∃ scope', params.foldl (fun names p => declareName p.lexeme names) (scope :: outer) = scope' :: outer ∧
      ∀ name ∈ scope', name ∈ scope ∨ name ∈ params.map (·.lexeme) := by
  induction params generalizing scope with
  | nil => exact ⟨scope, rfl, fun _ => Or.inl⟩
  | cons p rest ih =>
    obtain ⟨scope', heq, hmem⟩ := ih (if p.lexeme ∈ scope then scope else scope ++ [p.lexeme])
    refine ⟨scope', heq, fun name hname => ?_⟩
    rcases hmem name hname with h | h
    · split at h
      · exact Or.inl h
      · simp only [List.mem_append, List.mem_singleton] at h
        exact h.imp_right fun h => by simp [h]
    · exact Or.inr (List.mem_cons_of_mem _ h)

namespace Resolver

/-- The names of the open scopes, the innermost first. -/
def names (r : Resolver) : List (List String) := r.scopes.map (·.map (·.token.lexeme))

theorem length_names (r : Resolver) : r.names.length = r.scopes.length := by simp [names]

theorem names_modify (scope : Scope) (name : String) (f : LocalName → LocalName)
    (hf : ∀ x, (f x).token = x.token) :
    (scope.modify name f).map (·.token.lexeme) = scope.map (·.token.lexeme) := by
  simp only [Scope.modify, List.map_map]
  refine List.map_congr_left fun x _ => ?_
  simp only [Function.comp]
  split <;> simp [hf]

@[simp] theorem names_refuse (r : Resolver) (token : Token) (fault : ScopeFault) : (r.refuse token fault).names = r.names :=
  rfl

@[simp] theorem names_openScope (r : Resolver) : r.openScope.names = [] :: r.names := rfl

@[simp] theorem names_openReceiver (r : Resolver) (name : Token) : (r.openReceiver name).names = ["this"] :: r.names :=
  rfl

@[simp] theorem names_closeScope (r : Resolver) : r.closeScope.names = r.names.tail := by
  unfold closeScope names
  split <;> simp_all

theorem scopes_checkRead (r : Resolver) (token : Token) : (r.checkRead token).scopes = r.scopes := by
  unfold checkRead
  split <;> rfl

@[simp] theorem names_checkRead (r : Resolver) (token : Token) : (r.checkRead token).names = r.names := by
  rw [names, scopes_checkRead, names]

theorem find?_isSome (scope : Scope) (name : String) :
    (scope.find? name).isSome = decide (name ∈ scope.map (·.token.lexeme)) := by
  rw [Bool.eq_iff_iff, Scope.find?, List.find?_isSome]
  simp only [beq_iff_eq, decide_eq_true_eq, List.mem_map]

@[simp] theorem names_declare (r : Resolver) (token : Token) :
    (r.declare token).names = declareName token.lexeme r.names := by
  unfold declare
  cases h : r.scopes with
  | nil => simp [names, h, declareName]
  | cons scope outer =>
    simp only [find?_isSome, decide_eq_true_eq]
    split
    · next hm =>
      rw [names_refuse]
      simp only [names, h, List.map_cons, declareName, if_pos hm]
    · next hm =>
      simp only [names, h, List.map_cons, declareName, if_neg hm, Scope.declare, List.map_append, List.map_nil]

@[simp] theorem names_define (r : Resolver) (token : Token) : (r.define token).names = r.names := by
  unfold define
  cases h : r.scopes with
  | nil => rfl
  | cons scope outer => simp [names, h, Scope.define, names_modify]

@[simp] theorem names_introduce (r : Resolver) (token : Token) :
    (r.introduce token).names = declareName token.lexeme r.names := by
  simp [introduce]

@[simp] theorem names_refer (r : Resolver) (id : NodeId) (token : Token) : (r.refer id token).names = r.names := by
  unfold refer
  split
  · next d _ =>
    simp only [names]
    apply List.ext_getElem?
    intro i
    simp only [List.getElem?_map, List.getElem?_modify]
    cases r.scopes[i]? with
    | none => rfl
    | some scope =>
      split
      · exact congrArg some (names_modify _ _ _ fun _ => rfl)
      · rfl
  · rfl

theorem names_foldl_introduce (params : List Token) (r : Resolver) :
    (params.foldl introduce r).names = params.foldl (fun names p => declareName p.lexeme names) r.names := by
  induction params generalizing r with
  | nil => rfl
  | cons p rest ih => rw [List.foldl_cons, ih, names_introduce, List.foldl_cons]

/-- The distance to the nearest scope that declares a name depends on the names only. -/
theorem distance?_eq (scopes : List Scope) (name : String) :
    distance? scopes name = (scopes.map (·.map (·.token.lexeme))).findIdx? (name ∈ ·) := by
  unfold distance?
  induction scopes with
  | nil => rfl
  | cons scope outer ih => rw [List.map_cons, List.findIdx?_cons, List.findIdx?_cons, find?_isSome, ih]

/-! ### Steps without a visit -/

/-- No fault was found. -/
def Clean (r : Resolver) : Prop := ∀ token cause, Finding.fault token cause ∉ r.findings

/-- A step that takes back no finding and records no distance. -/
structure Silent (r r' : Resolver) : Prop where
  findings : r.findings <+: r'.findings
  distances : r'.distances = r.distances
  log : r'.log = r.log

/-- Between the two states the visits are noted, in the table and in the log. -/
structure Noted (r : Resolver) (visits : List Visit) (r' : Resolver) : Prop where
  distances : r'.distances = visits.foldl Distances.note r.distances
  log : r'.log = r.log ++ visits.map Visit.lookup

theorem Silent.noted {r r' : Resolver} (h : Silent r r') : r.Noted [] r' :=
  ⟨h.distances, by rw [h.log, List.map_nil, List.append_nil]⟩

theorem Noted.trans {r r' r'' : Resolver} {vs ws : List Visit} (h : r.Noted vs r') (h' : r'.Noted ws r'') :
    r.Noted (vs ++ ws) r'' :=
  ⟨by rw [h'.distances, h.distances, List.foldl_append], by rw [h'.log, h.log, List.map_append, List.append_assoc]⟩

theorem Noted.after {r r' r'' : Resolver} {vs : List Visit} (hs : Silent r r') (h : r'.Noted vs r'') : r.Noted vs r'' :=
  hs.noted.trans h

theorem Noted.before {r r' r'' : Resolver} {vs : List Visit} (h : r.Noted vs r') (hs : Silent r' r'') : r.Noted vs r'' :=
  List.append_nil vs ▸ h.trans hs.noted

theorem Clean.of_findings {r r' : Resolver} (h : r'.Clean) (hf : r.findings <+: r'.findings) : r.Clean :=
  fun token cause hm => h token cause (hf.subset hm)

namespace Silent

variable {r r' r'' : Resolver}

theorem refl (r : Resolver) : Silent r r := ⟨List.prefix_refl _, rfl, rfl⟩

theorem trans (h : Silent r r') (h' : Silent r' r'') : Silent r r'' :=
  ⟨h.findings.trans h'.findings, h'.distances.trans h.distances, h'.log.trans h.log⟩

theorem refuse (r : Resolver) (token : Token) (fault : ScopeFault) : Silent r (r.refuse token fault) :=
  ⟨List.prefix_append _ _, rfl, rfl⟩

theorem openScope (r : Resolver) : Silent r r.openScope := ⟨List.prefix_refl _, rfl, rfl⟩

theorem openReceiver (r : Resolver) (name : Token) : Silent r (r.openReceiver name) := ⟨List.prefix_refl _, rfl, rfl⟩

theorem closeScope (r : Resolver) : Silent r r.closeScope := by
  unfold Resolver.closeScope
  split
  · exact refl r
  · exact ⟨List.prefix_append _ _, rfl, rfl⟩

theorem declare (r : Resolver) (token : Token) : Silent r (r.declare token) := by
  unfold Resolver.declare
  split
  · exact refl r
  · split
    · exact refuse r _ _
    · exact ⟨List.prefix_refl _, rfl, rfl⟩

theorem define (r : Resolver) (token : Token) : Silent r (r.define token) := by
  unfold Resolver.define
  split
  · exact refl r
  · exact ⟨List.prefix_refl _, rfl, rfl⟩

theorem introduce (r : Resolver) (token : Token) : Silent r (r.introduce token) :=
  (declare r token).trans (define _ token)

theorem enterClass (r : Resolver) (name : Token) : Silent r ({ r with inClass := true }.introduce name) :=
  have h : Silent r { r with inClass := true } := ⟨List.prefix_refl _, rfl, rfl⟩
  h.trans (introduce _ name)

theorem checkRead (r : Resolver) (token : Token) : Silent r (r.checkRead token) := by
  unfold Resolver.checkRead
  split
  · exact refuse r _ _
  · exact refl r

theorem enter (r : Resolver) (kind : Enclosing) (params : List Token) : Silent r (r.enter kind params) := by
  have fold : ∀ (params : List Token) (r : Resolver), Silent r (params.foldl Resolver.introduce r) := by
    intro params
    induction params with
    | nil => exact refl
    | cons p rest ih => exact fun r => (introduce r p).trans (ih _)
  exact (Silent.mk (List.prefix_refl _) rfl rfl : Silent r { r with enclosing := kind, loops := 0 }.openScope).trans
    (fold params _)

end Silent

end Resolver

/-! ### The walk -/

/-- A walk from one state to another: the names of the open scopes behind it, its references and its visits. These are
noted one after another, all of them unless a fault is found; and all visits stand in the initializers that are around the
walk. -/
structure Walk (around : List Initializing) (names : List (List String)) (references : List Reference)
    (r : Resolver) (visits : List Visit) (r' : Resolver) : Prop where
  names_eq : r'.names = names
  findings : r.findings <+: r'.findings
  complete : r'.Clean → r.Noted visits r'
  noted : ∃ noted : List Visit, noted.Sublist visits ∧ r.Noted noted r'
  untouched : ∀ id, id ∉ references.map (·.id) → r'.distances.find? id = r.distances.find? id
  perm : (visits.map (·.reference)).Perm references
  within : ∀ v ∈ visits, around ⊆ v.initializing

namespace Walk

variable {around : List Initializing} {names names' : List (List String)} {x y : List Reference}
  {r r' r'' : Resolver} {vs ws : List Visit}

theorem refl (r : Resolver) : Walk around r.names [] r [] r :=
  have hnoted := (Resolver.Silent.refl r).noted
  ⟨rfl, List.prefix_refl _, fun _ => hnoted, ⟨[], List.Sublist.refl _, hnoted⟩, fun _ _ => rfl, List.Perm.refl _,
    fun _ hv => (by cases hv)⟩

theorem distances (h : Walk around names x r vs r') (hc : r'.Clean) : r'.distances = vs.foldl Distances.note r.distances :=
  (h.complete hc).distances

theorem trans (h : Walk around names x r vs r') (h' : Walk around names' y r' ws r'') :
    Walk around names' (x ++ y) r (vs ++ ws) r'' := by
  refine ⟨h'.names_eq, h.findings.trans h'.findings, fun hc => ?_, ?_, fun id hid => ?_, ?_, fun v hv => ?_⟩
  · exact (h.complete (hc.of_findings h'.findings)).trans (h'.complete hc)
  · obtain ⟨noted, hsub, hnoted⟩ := h.noted
    obtain ⟨noted', hsub', hnoted'⟩ := h'.noted
    exact ⟨noted ++ noted', hsub.append hsub', hnoted.trans hnoted'⟩
  · rw [List.map_append, List.mem_append, not_or] at hid
    rw [h'.untouched id hid.2, h.untouched id hid.1]
  · rw [List.map_append]
    exact h.perm.append h'.perm
  · exact (List.mem_append.mp hv).elim (h.within v) (h'.within v)

/-- Two walks that leave the names as they are, one behind the other. -/
theorem seq (h : Walk around r.names x r vs r') (h' : Walk around r'.names y r' ws r'') :
    Walk around r.names (x ++ y) r (vs ++ ws) r'' := by
  rw [← h.names_eq]
  exact h.trans h'

theorem reorder (h : Walk around names x r vs r') (hp : x.Perm y) : Walk around names y r vs r' :=
  ⟨h.names_eq, h.findings, h.complete, h.noted,
    fun id hid => h.untouched id fun hx => hid ((hp.map _).mem_iff.mp hx), h.perm.trans hp, h.within⟩

theorem after (hs : Resolver.Silent r r') (h : Walk around names x r' vs r'') : Walk around names x r vs r'' :=
  have ⟨noted, hsub, hnoted⟩ := h.noted
  ⟨h.names_eq, hs.findings.trans h.findings, fun hc => .after hs (h.complete hc), ⟨noted, hsub, .after hs hnoted⟩,
    fun id hid => by rw [h.untouched id hid, hs.distances], h.perm, h.within⟩

theorem before (h : Walk around names x r vs r') (hs : Resolver.Silent r' r'') (hn : r''.names = names') :
    Walk around names' x r vs r'' :=
  have ⟨noted, hsub, hnoted⟩ := h.noted
  ⟨hn, h.findings.trans hs.findings, fun hc => (h.complete (hc.of_findings hs.findings)).before hs,
    ⟨noted, hsub, hnoted.before hs⟩, fun id hid => by rw [hs.distances, h.untouched id hid], h.perm, h.within⟩

theorem silent (hs : Resolver.Silent r r') (hn : r'.names = names) : Walk around names [] r [] r' :=
  (refl r).before hs hn

/-- The walk stands in fewer initializers than it is known to. -/
theorem outside {more : List Initializing} (h : Walk more names x r vs r') (hsub : around ⊆ more) :
    Walk around names x r vs r' :=
  ⟨h.names_eq, h.findings, h.complete, h.noted, h.untouched, h.perm, fun v hv => List.Subset.trans hsub (h.within v hv)⟩

/-- A reference is visited and its distance recorded. -/
theorem refer (around : List Initializing) (r : Resolver) (kind : ReferenceKind) (id : NodeId) (token : Token) :
    Walk around r.names [⟨kind, id, token⟩] r [⟨⟨kind, id, token⟩, r.scopes, around⟩] (r.refer id token) := by
  have hnoted : r.Noted [⟨⟨kind, id, token⟩, r.scopes, around⟩] (r.refer id token) := by
    constructor <;> simp only [List.foldl_cons, List.foldl_nil, List.map_cons, List.map_nil, Distances.note, Visit.lookup,
      Visit.name, Resolver.refer] <;> cases Resolver.distance? r.scopes token.lexeme <;> rfl
  refine ⟨r.names_refer id token, ?_, fun _ => hnoted, ⟨_, List.Sublist.refl _, hnoted⟩, fun key hkey => ?_,
    List.Perm.refl _, ?_⟩
  · unfold Resolver.refer
    split <;> exact List.prefix_refl _
  · rw [hnoted.distances, List.foldl_cons, List.foldl_nil, Distances.find?_note, if_neg]
    exact fun heq => hkey (List.mem_singleton.mpr heq.symm)
  · intro v hv
    obtain rfl := List.mem_singleton.mp hv
    exact List.Subset.refl _

/-- A name is read: the check of its own initializer comes first, and changes no scope. -/
theorem read (around : List Initializing) (r : Resolver) (kind : ReferenceKind) (id : NodeId) (token : Token) :
    Walk around r.names [⟨kind, id, token⟩] r [⟨⟨kind, id, token⟩, r.scopes, around⟩]
      ((r.checkRead token).refer id token) := by
  have h := (refer around (r.checkRead token) kind id token).after (Resolver.Silent.checkRead r token)
  rw [Resolver.scopes_checkRead, Resolver.names_checkRead] at h
  exact h

end Walk

/-- A class behind its superclass, which is a variable: the class declares its name first. -/
theorem Walk.superclass (around : List Initializing) (r : Resolver) (name : Token) (id : NodeId) (token : Token) :
    Walk around (declareName name.lexeme r.names) [⟨.var, id, token⟩] r
      ((Expr.var id token).visits around ({ r with inClass := true }.introduce name))
      (r.afterSuperclass name (some (.var id token))) := by
  have hentry := Resolver.Silent.enterClass r name
  have hnames : ({ r with inClass := true }.introduce name).names = declareName name.lexeme r.names :=
    Resolver.names_introduce _ name
  simp only [Resolver.afterSuperclass, Expr.visits, Expr.resolve]
  split
  · have h := (Walk.read around (({ r with inClass := true }.introduce name).refuse token .inheritsItself)
      .var id token).after (hentry.trans (Resolver.Silent.refuse _ _ _))
    rw [Resolver.names_refuse, hnames] at h
    exact h
  · have h := (Walk.read around ({ r with inClass := true }.introduce name) .var id token).after hentry
    rw [hnames] at h
    exact h

mutual

theorem Expr.walk : ∀ (e : Expr) (around : List Initializing) (r : Resolver), e.Shaped →
    Walk around r.names e.references r (e.visits around r) (e.resolve r)
  | .literal _, _, r, _ => Walk.refl r
  | .array _ _, _, r, _ => Walk.refl r
  | .unary _ right, around, r, h => right.walk around r h
  | .binary left _ right, around, r, h => (left.walk around r h.1).seq (right.walk around _ h.2)
  | .logical left _ right, around, r, h => (left.walk around r h.1).seq (right.walk around _ h.2)
  | .grouping inner, around, r, h => inner.walk around r h
  | .var id name, around, r, _ => Walk.read around r .var id name
  | .global _, _, r, _ => Walk.refl r
  | .assign id name value, around, r, h =>
    ((value.walk around r h).seq (Walk.refer around _ .assign id name)).reorder List.perm_append_comm
  | .ternary condition _ yes no, around, r, h =>
    ((condition.walk around r h.1).seq (yes.walk around _ h.2.1)).seq (no.walk around _ h.2.2)
  | .call callee _ arguments, around, r, h =>
    (callee.walk around r h.1).seq (Expr.allWalk arguments around _ h.2)
  | .lambda routine, around, r, h => routine.walk .function around r h
  | .get object _, around, r, h => object.walk around r h
  | .set object _ value, around, r, h =>
    ((value.walk around r h.2).seq (object.walk around _ h.1)).reorder List.perm_append_comm
  | .this id keyword, around, r, _ => by
    unfold Expr.visits Expr.resolve
    split
    · exact Walk.refer around r .this id keyword
    · have hsilent := Resolver.Silent.refuse r keyword .thisOutsideClass
      refine ⟨rfl, hsilent.findings, fun hc => ?_, ⟨[], List.nil_sublist _, hsilent.noted⟩, fun _ _ => rfl,
        List.Perm.refl _, ?_⟩
      · exact absurd (List.mem_append_right _ (List.mem_singleton_self _)) (hc keyword .thisOutsideClass)
      · exact (Walk.refer around r .this id keyword).within
  | .subscript id name index, around, r, h => by
    have hread := Walk.read around r .index id name
    exact hread.seq (index.walk around _ h)

theorem Expr.allWalk : ∀ (es : List Expr) (around : List Initializing) (r : Resolver), Expr.AllShaped es →
    Walk around r.names (Expr.allReferences es) r (Expr.allVisits around es r) (Expr.resolveAll es r)
  | [], _, r, _ => Walk.refl r
  | e :: rest, around, r, h => (e.walk around r h.1).seq (Expr.allWalk rest around _ h.2)

theorem Stmt.walk : ∀ (s : Stmt) (around : List Initializing) (r : Resolver), s.Shaped →
    Walk around (declareIn r.names s.declared?) s.references r (s.visits around r) (s.resolve r)
  | .expression value, around, r, h => value.walk around r h
  | .print _ values, around, r, h => Expr.allWalk values around r h
  | .varDecl name none, _, r, _ => Walk.silent (Resolver.Silent.introduce r name) (Resolver.names_introduce r name)
  | .varDecl name (some value), around, r, h => by
    have hvalue := (value.walk (⟨name.lexeme, r.scopes.length⟩ :: around) (r.declare name) h).outside
      (List.subset_cons_self _ around)
    rw [Resolver.names_declare] at hvalue
    exact (hvalue.after (Resolver.Silent.declare r name)).before (Resolver.Silent.define _ name)
      ((Resolver.names_define _ name).trans hvalue.names_eq)
  | .block body, around, r, h => by
    have hbody := (Stmt.allWalk body around r.openScope h).after (Resolver.Silent.openScope r)
    refine hbody.before (Resolver.Silent.closeScope _) ?_
    exact (Resolver.names_closeScope _).trans
      ((congrArg List.tail hbody.names_eq).trans (tail_foldl_declareIn body _))
  | .ifElse condition yes none, around, r, h => by
    have hyes := yes.walk around (condition.resolve r) h.2.2
    rw [h.2.1] at hyes
    exact (condition.walk around r h.1).seq hyes
  | .ifElse condition yes (some no), around, r, h => by
    have hyes := yes.walk around (condition.resolve r) h.2.1.2
    have hno := no.walk around (yes.resolve (condition.resolve r)) h.2.2.2
    rw [h.2.1.1] at hyes
    rw [h.2.2.1] at hno
    exact ((condition.walk around r h.1).seq hyes).seq hno
  | .whileLoop condition body, around, r, h => by
    have hcondition := condition.walk around r h.1
    have hbody := body.walk around { condition.resolve r with loops := (condition.resolve r).loops + 1 } h.2.2
    rw [h.2.1] at hbody
    have hopen : Resolver.Silent (condition.resolve r)
        { condition.resolve r with loops := (condition.resolve r).loops + 1 } := ⟨List.prefix_refl _, rfl, rfl⟩
    have hall := hcondition.trans (hbody.after hopen)
    exact hall.before ⟨List.prefix_refl _, rfl, rfl⟩ (hbody.names_eq.trans hcondition.names_eq)
  | .function routine, around, r, h => by
    have hroutine := routine.walk .function around (r.introduce routine.name) h
    rw [Resolver.names_introduce] at hroutine
    exact hroutine.after (Resolver.Silent.introduce r _)
  | .breakLoop keyword, _, r, _ => by
    unfold Stmt.visits Stmt.resolve
    split
    · exact Walk.silent (Resolver.Silent.refuse r _ _) rfl
    · exact Walk.refl r
  | .returnValue keyword none, _, r, _ => by
    simp only [Stmt.visits, Stmt.resolve]
    split
    · exact Walk.silent (Resolver.Silent.refuse r _ _) rfl
    · exact Walk.refl r
  | .returnValue keyword (some value), around, r, h => by
    simp only [Stmt.visits, Stmt.resolve]
    split
    · exact (value.walk around (r.refuse keyword .returnOutsideFunction) h).after (Resolver.Silent.refuse r _ _)
    · exact value.walk around r h
  | .classDecl name none methods, around, r, h => by
    have hentry : Resolver.Silent r (r.afterSuperclass name none) := Resolver.Silent.enterClass r name
    have hmethods := Routine.methodWalk methods around ((r.afterSuperclass name none).openReceiver name) h
    refine ((hmethods.after (hentry.trans (Resolver.Silent.openReceiver _ name))).before
      ((Resolver.Silent.closeScope _).trans ⟨List.prefix_refl _, rfl, rfl⟩) ?_)
    exact (Resolver.names_closeScope _).trans ((congrArg List.tail hmethods.names_eq).trans
      (Resolver.names_introduce _ name))
  | .classDecl name (some parent) methods, around, r, h => by
    obtain ⟨id, token, rfl⟩ := h.1
    have hparent := Walk.superclass around r name id token
    have hmethods := Routine.methodWalk methods around
      ((r.afterSuperclass name (some (.var id token))).openReceiver name) h.2
    refine hparent.trans ((hmethods.after (Resolver.Silent.openReceiver _ name)).before
      ((Resolver.Silent.closeScope _).trans ⟨List.prefix_refl _, rfl, rfl⟩) ?_)
    exact (Resolver.names_closeScope _).trans ((congrArg List.tail hmethods.names_eq).trans hparent.names_eq)
  | .useLibrary _ _, _, r, _ => Walk.refl r

theorem Stmt.allWalk : ∀ (body : List Stmt) (around : List Initializing) (r : Resolver), Stmt.AllShaped body →
    Walk around (body.foldl (fun names s => declareIn names s.declared?) r.names) (Stmt.allReferences body) r
      (Stmt.allVisits around body r) (Stmt.resolveAll body r)
  | [], _, r, _ => Walk.refl r
  | s :: rest, around, r, h => by
    have hs := s.walk around r h.1
    have hrest := Stmt.allWalk rest around (s.resolve r) h.2
    rw [hs.names_eq] at hrest
    exact hs.trans hrest

theorem Routine.walk (kind : Enclosing) : ∀ (routine : Routine) (around : List Initializing) (r : Resolver),
    routine.Shaped →
    Walk around r.names routine.references r (routine.visits around kind r) (routine.resolve kind r)
  | ⟨_, params, body⟩, around, r, h => by
    have hbody := (Stmt.allWalk body around (r.enter kind params) h).after (Resolver.Silent.enter r kind params)
    refine hbody.before ((Resolver.Silent.closeScope _).trans ⟨List.prefix_refl _, rfl, rfl⟩) ?_
    refine (Resolver.names_closeScope _).trans ((congrArg List.tail hbody.names_eq).trans ?_)
    rw [tail_foldl_declareIn, Resolver.enter, Resolver.names_foldl_introduce]
    exact tail_foldl_declareName params _

theorem Routine.methodWalk : ∀ (methods : List Routine) (around : List Initializing) (r : Resolver),
    Routine.AllShaped methods →
    Walk around r.names (Routine.allReferences methods) r (Routine.methodVisits around methods r)
      (Routine.resolveMethods methods r)
  | [], _, r, _ => Walk.refl r
  | m :: rest, around, r, h => (m.walk _ around r h.1).seq (Routine.methodWalk rest around _ h.2)

end

end Treewalk
