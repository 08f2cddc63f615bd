import Treewalk.Proofs.Scope.Visits
import Treewalk.Proofs.Tree.Counterpart
import Treewalk.Proofs.Tree.Relabeling

/-!
The check of a tree among scopes of different shape. The open scopes of two checks lie side by side in layers if each
scope that stands on one side only declares nothing. Then the check of a tree and of a copy with other identities finds
no fault on the one side that it does not find on the other, and by the distances that come out the copy is the
counterpart of the tree.
-/

namespace Treewalk

open Resolver

/-- The open scopes of two checks, laid side by side. Where the first check has a scope for itself, the names in the
innermost scope of the second one have their values. -/
def Abreast : Layers → List Scope → List Scope → Prop
  | [], scopes, scopes' => scopes' = scopes
  | .shared :: outer, scopes, scopes' =>
    ∃ scope rest rest', scopes = scope :: rest ∧ scopes' = scope :: rest' ∧ Abreast outer rest rest'
  | .first :: outer, scopes, scopes' =>
    (∀ scope ∈ scopes'.head?, ∀ entry ∈ scope, entry.defined = true) ∧ ∃ rest, scopes = [] :: rest ∧
      Abreast outer rest scopes'
  | .second :: outer, scopes, scopes' => ∃ rest', scopes' = [] :: rest' ∧ Abreast outer scopes rest'

namespace Abreast

variable {layers : Layers} {scopes scopes' : List Scope}

theorem distance?_cons (scope : Scope) (rest : List Scope) (name : String) :
    distance? (scope :: rest) name =
      if (scope.find? name).isSome then some 0 else (distance? rest name).map (· + 1) :=
  List.findIdx?_cons

theorem distance?_empty (rest : List Scope) (name : String) :
    distance? ([] :: rest) name = (distance? rest name).map (· + 1) := distance?_cons [] rest name

/-- A name is global in both chains of scopes, or it is declared at distances that go with each other. -/
theorem distance? (h : Abreast layers scopes scopes') (name : String) :
    (Resolver.distance? scopes name = none ∧ Resolver.distance? scopes' name = none) ∨
      ∃ n n', Resolver.distance? scopes name = some n ∧ Resolver.distance? scopes' name = some n' ∧
        layers.along n = some n' := by
  induction layers generalizing scopes scopes' with
  | nil =>
    obtain rfl : scopes' = scopes := h
    cases hd : Resolver.distance? scopes' name with
    | none => exact .inl ⟨rfl, rfl⟩
    | some n => exact .inr ⟨n, n, rfl, rfl, rfl⟩
  | cons layer outer ih =>
    cases layer with
    | shared =>
      obtain ⟨scope, rest, rest', rfl, rfl, hrest⟩ := h
      rw [distance?_cons, distance?_cons]
      split
      · exact .inr ⟨0, 0, rfl, rfl, rfl⟩
      · obtain ⟨hn, hn'⟩ | ⟨n, n', hn, hn', halong⟩ := ih hrest
        · exact .inl ⟨by rw [hn]; rfl, by rw [hn']; rfl⟩
        · exact .inr ⟨n + 1, n' + 1, by rw [hn]; rfl, by rw [hn']; rfl, by rw [Layers.along, halong]; rfl⟩
    | first =>
      obtain ⟨-, rest, rfl, hrest⟩ := h
      rw [distance?_empty]
      obtain ⟨hn, hn'⟩ | ⟨n, n', hn, hn', halong⟩ := ih hrest
      · exact .inl ⟨by rw [hn]; rfl, hn'⟩
      · exact .inr ⟨n + 1, n', by rw [hn]; rfl, hn', halong⟩
    | second =>
      obtain ⟨rest', rfl, hrest⟩ := h
      rw [distance?_empty]
      obtain ⟨hn, hn'⟩ | ⟨n, n', hn, hn', halong⟩ := ih hrest
      · exact .inl ⟨hn, by rw [hn']; rfl⟩
      · exact .inr ⟨n, n' + 1, hn, by rw [hn']; rfl, by rw [Layers.along, halong]; rfl⟩

theorem defined_use {scope : Scope} (h : ∀ entry ∈ scope, entry.defined = true) (name : String) :
    ∀ entry ∈ scope.use name, entry.defined = true := by
  intro entry hentry
  obtain ⟨old, hold, rfl⟩ := List.mem_map.mp hentry
  split
  · exact h old hold
  · exact h old hold

/-- A name counts as used in scopes that stand for each other. -/
theorem use (h : Abreast layers scopes scopes') {n n' : Nat} (halong : layers.along n = some n') (name : String) :
    Abreast layers (scopes.modify n (·.use name)) (scopes'.modify n' (·.use name)) := by
  induction layers generalizing scopes scopes' n n' with
  | nil =>
    obtain rfl : scopes' = scopes := h
    obtain rfl : n = n' := Option.some.inj halong
    rfl
  | cons layer outer ih =>
    cases layer with
    | shared =>
      obtain ⟨scope, rest, rest', rfl, rfl, hrest⟩ := h
      cases n with
      | zero =>
        obtain rfl : 0 = n' := Option.some.inj halong
        exact ⟨scope.use name, rest, rest', rfl, rfl, hrest⟩
      | succ n =>
        obtain ⟨k, hk, rfl⟩ := Option.map_eq_some_iff.mp halong
        exact ⟨scope, _, _, rfl, rfl, ih hrest hk⟩
    | first =>
      obtain ⟨hdefined, rest, rfl, hrest⟩ := h
      cases n with
      | zero => cases halong
      | succ n =>
        refine ⟨?_, _, rfl, ih hrest halong⟩
        cases scopes' with
        | nil =>
          rw [List.modify_nil]
          exact nofun
        | cons scope rest' =>
          cases n' with
          | succ n' => exact hdefined
          | zero =>
            rintro _ ⟨⟩
            exact defined_use (hdefined scope rfl) name
    | second =>
      obtain ⟨rest', rfl, hrest⟩ := h
      obtain ⟨k, hk, rfl⟩ := Option.map_eq_some_iff.mp halong
      exact ⟨_, rfl, ih hrest hk⟩

/-- Where the innermost scopes stand for each other they are the same, and may be replaced. -/
theorem innermost (h : Abreast layers scopes scopes') (level : layers.Level) :
    (scopes = [] ∧ scopes' = []) ∨ ∃ scope rest rest', scopes = scope :: rest ∧ scopes' = scope :: rest' ∧
      ∀ other, Abreast layers (other :: rest) (other :: rest') := by
  match layers, h, level with
  | [], h, _ =>
    obtain rfl : scopes' = scopes := h
    cases scopes' with
    | nil => exact .inl ⟨rfl, rfl⟩
    | cons scope rest => exact .inr ⟨scope, rest, rest, rfl, rfl, fun _ => rfl⟩
  | .shared :: _, ⟨scope, rest, rest', hs, hs', hrest⟩, _ =>
    exact .inr ⟨scope, rest, rest', hs, hs', fun other => ⟨other, rest, rest', rfl, rfl, hrest⟩⟩

end Abreast

/-! ### Steps of the check -/

/-- Two checks among scopes that lie side by side. The second one has found no fault unless the first one has. -/
structure Resolver.Abreast (layers : Layers) (r r' : Resolver) : Prop where
  scopes : Treewalk.Abreast layers r.scopes r'.scopes
  enclosing : r'.enclosing = r.enclosing
  inClass : r'.inClass = r.inClass
  loops : r'.loops = r.loops
  clean : r.Clean → r'.Clean

namespace Resolver.Abreast

variable {layers : Layers} {r r' : Resolver}

theorem not_clean_refuse (r : Resolver) (token : Token) (fault : ScopeFault) : ¬(r.refuse token fault).Clean :=
  fun h => h token fault (List.mem_append_right _ (List.mem_singleton_self _))

theorem refuse (h : Abreast layers r r') (token : Token) (fault : ScopeFault) :
    Abreast layers (r.refuse token fault) (r'.refuse token fault) :=
  { h with clean := fun hc => absurd hc (not_clean_refuse r token fault) }

theorem withScopes (h : Abreast layers r r') {inner : Layers} {scopes scopes' : List Scope}
    (hs : Treewalk.Abreast inner scopes scopes') : Abreast inner { r with scopes } { r' with scopes := scopes' } :=
  { h with scopes := hs }

theorem openScope (h : Abreast layers r r') : Abreast (.shared :: layers) r.openScope r'.openScope :=
  h.withScopes ⟨[], r.scopes, r'.scopes, rfl, rfl, h.scopes⟩

theorem openReceiver (h : Abreast layers r r') (name : Token) :
    Abreast (.shared :: layers) (r.openReceiver name) (r'.openReceiver name) :=
  h.withScopes ⟨_, r.scopes, r'.scopes, rfl, rfl, h.scopes⟩

theorem clean_closeScope (h : r.Clean) : r.closeScope.Clean := by
  unfold Resolver.closeScope
  split
  · exact h
  · intro token cause hmem
    rcases List.mem_append.mp hmem with hmem | hmem
    · exact h token cause hmem
    · obtain ⟨_, -, heq⟩ := List.mem_map.mp hmem
      cases heq

theorem closeScope (h : Abreast (.shared :: layers) r r') : Abreast layers r.closeScope r'.closeScope := by
  have hclean : r.closeScope.Clean → r'.closeScope.Clean := fun hc =>
    clean_closeScope (h.clean (hc.of_findings (Silent.closeScope r).findings))
  obtain ⟨scope, rest, rest', hs, hs', hrest⟩ := h.scopes
  unfold Resolver.closeScope at hclean ⊢
  rw [hs, hs'] at hclean ⊢
  exact { h with scopes := hrest, clean := hclean }

theorem declare (h : Abreast layers r r') (level : layers.Level) (token : Token) :
    Abreast layers (r.declare token) (r'.declare token) := by
  unfold Resolver.declare
  obtain ⟨hs, hs'⟩ | ⟨scope, rest, rest', hs, hs', habreast⟩ := h.scopes.innermost level
  · rw [hs, hs']
    exact h
  · rw [hs, hs']
    dsimp only
    split
    · exact h.refuse token .redeclared
    · exact h.withScopes (habreast _)

theorem define (h : Abreast layers r r') (level : layers.Level) (token : Token) :
    Abreast layers (r.define token) (r'.define token) := by
  unfold Resolver.define
  obtain ⟨hs, hs'⟩ | ⟨scope, rest, rest', hs, hs', habreast⟩ := h.scopes.innermost level
  · rw [hs, hs']
    exact h
  · rw [hs, hs']
    exact h.withScopes (habreast _)

theorem introduce (h : Abreast layers r r') (level : layers.Level) (token : Token) :
    Abreast layers (r.introduce token) (r'.introduce token) :=
  (h.declare level token).define level token

theorem introduceAll (h : Abreast layers r r') (level : layers.Level) (tokens : List Token) :
    Abreast layers (tokens.foldl Resolver.introduce r) (tokens.foldl Resolver.introduce r') := by
  induction tokens generalizing r r' with
  | nil => exact h
  | cons token rest ih => exact ih (h.introduce level token)

/-- What the second check takes for a name in its own initializer, the first one takes for that too. -/
theorem inOwnInitializer {layers : Layers} {scopes scopes' : List Scope} (h : Treewalk.Abreast layers scopes scopes')
    (name : String) (hown : Resolver.inOwnInitializer { scopes := scopes' } name = true) :
    Resolver.inOwnInitializer { scopes } name = true := by
  match layers, h with
  | [], h =>
    obtain rfl : scopes' = scopes := h
    exact hown
  | .shared :: _, ⟨scope, rest, rest', hs, hs', _⟩ =>
    subst hs hs'
    exact hown
  | .first :: _, ⟨hdefined, _⟩ =>
    cases scopes' with
    | nil => cases hown
    | cons scope rest =>
      have hany : (scope.find? name).any (!·.defined) = true := hown
      cases hfind : scope.find? name with
      | none =>
        rw [hfind] at hany
        cases hany
      | some entry =>
        rw [hfind, Option.any_some, hdefined scope rfl entry (List.mem_of_find?_eq_some hfind)] at hany
        cases hany
  | .second :: _, ⟨rest', hs', _⟩ =>
    subst hs'
    cases hown

theorem checkRead (h : Abreast layers r r') (token : Token) : Abreast layers (r.checkRead token) (r'.checkRead token) := by
  unfold Resolver.checkRead
  by_cases hown' : r'.inOwnInitializer token.lexeme = true
  · have hown : r.inOwnInitializer token.lexeme = true := inOwnInitializer h.scopes token.lexeme hown'
    rw [if_pos hown, if_pos hown']
    exact h.refuse token .ownInitializer
  · rw [if_neg hown']
    split
    · exact { h with clean := fun hc => absurd hc (not_clean_refuse r token _) }
    · exact h

theorem refer (h : Abreast layers r r') (id id' : NodeId) (token : Token) :
    Abreast layers (r.refer id token) (r'.refer id' token) := by
  unfold Resolver.refer
  obtain ⟨hn, hn'⟩ | ⟨n, n', hn, hn', halong⟩ := h.scopes.distance? token.lexeme
  · rw [hn, hn']
    exact { h with scopes := h.scopes }
  · rw [hn, hn']
    exact { h with scopes := h.scopes.use halong token.lexeme }

theorem looped (h : Abreast layers r r') (change : Nat → Nat) :
    Abreast layers { r with loops := change r.loops } { r' with loops := change r'.loops } :=
  { h with loops := congrArg change h.loops }

theorem inBody (h : Abreast layers r r') (enclosing : Enclosing) (loops : Nat) :
    Abreast layers { r with enclosing, loops } { r' with enclosing, loops } :=
  { h with enclosing := rfl, loops := rfl }

theorem inClassBody (h : Abreast layers r r') {inClass inClass' : Bool} (hc : inClass' = inClass) :
    Abreast layers { r with inClass } { r' with inClass := inClass' } := { h with inClass := hc }

/-- The name of a class is introduced inside of it. -/
theorem enterClass (h : Abreast layers r r') (level : layers.Level) (name : Token) :
    Abreast layers ({ r with inClass := true }.introduce name) ({ r' with inClass := true }.introduce name) :=
  (h.inClassBody rfl).introduce level name

theorem checkParent (h : Abreast layers r r') (name parent : Token) :
    Abreast layers (if parent.lexeme == name.lexeme then r.refuse parent .inheritsItself else r)
      (if parent.lexeme == name.lexeme then r'.refuse parent .inheritsItself else r') := by
  split
  · exact h.refuse parent .inheritsItself
  · exact h

theorem checkReturn (h : Abreast layers r r') (keyword : Token) :
    Abreast layers (if r.enclosing = .none then r.refuse keyword .returnOutsideFunction else r)
      (if r'.enclosing = .none then r'.refuse keyword .returnOutsideFunction else r') := by
  rw [h.enclosing]
  split
  · exact h.refuse keyword .returnOutsideFunction
  · exact h

theorem enter (h : Abreast layers r r') (kind : Enclosing) (params : List Token) :
    Abreast (.shared :: layers) (r.enter kind params) (r'.enter kind params) :=
  (h.inBody kind 0).openScope.introduceAll trivial params

end Resolver.Abreast

/-! ### Trees and their copies -/

/-- New identities for nodes, with all tokens as they are. -/
def Relabeling.identities (node : NodeId → NodeId) : Relabeling := ⟨node, fun n => n, fun n => n⟩

variable {node : NodeId → NodeId}

theorem Token.relabel_identities (t : Token) : t.relabel (.identities node) = t := rfl

theorem Token.map_relabel_identities (ts : List Token) : ts.map (·.relabel (.identities node)) = ts :=
  (List.map_congr_left fun t _ => t.relabel_identities).trans (List.map_id ts)

mutual

theorem Expr.resolve_abreast : ∀ (e : Expr) {layers : Layers} {r r' : Resolver}, Resolver.Abreast layers r r' → e.Shaped →
    Resolver.Abreast layers (e.resolve r) ((e.relabel (.identities node)).resolve r')
  | .literal _, _, _, _, h, _ => h
  | .array _ _, _, _, _, h, _ => h
  | .unary _ right, _, _, _, h, hs => right.resolve_abreast h hs
  | .binary left _ right, _, _, _, h, hs => right.resolve_abreast (left.resolve_abreast h hs.1) hs.2
  | .logical left _ right, _, _, _, h, hs => right.resolve_abreast (left.resolve_abreast h hs.1) hs.2
  | .grouping inner, _, _, _, h, hs => inner.resolve_abreast h hs
  | .var id name, _, _, _, h, _ => (h.checkRead name).refer id (node id) name
  | .global _, _, _, _, h, _ => h
  | .assign id name value, _, _, _, h, hs => (value.resolve_abreast h hs).refer id (node id) name
  | .ternary condition _ yes no, _, _, _, h, hs =>
    no.resolve_abreast (yes.resolve_abreast (condition.resolve_abreast h hs.1) hs.2.1) hs.2.2
  | .call callee _ arguments, _, _, _, h, hs => Expr.resolveAll_abreast arguments (callee.resolve_abreast h hs.1) hs.2
  | .lambda routine, _, _, _, h, hs => routine.resolve_abreast .function h hs
  | .get object _, _, _, _, h, hs => object.resolve_abreast h hs
  | .set object _ value, _, _, _, h, hs => object.resolve_abreast (value.resolve_abreast h hs.2) hs.1
  | .this id keyword, _, r, r', h, _ => by
    rw [Expr.relabel, Expr.resolve, Expr.resolve, h.inClass]
    split
    · exact h.refer id (node id) keyword
    · exact h.refuse keyword .thisOutsideClass
  | .subscript id name index, _, _, _, h, hs => index.resolve_abreast ((h.checkRead name).refer id (node id) name) hs

theorem Expr.resolveAll_abreast : ∀ (es : List Expr) {layers : Layers} {r r' : Resolver}, Resolver.Abreast layers r r' →
    Expr.AllShaped es →
    Resolver.Abreast layers (Expr.resolveAll es r) (Expr.resolveAll (Expr.relabelAll (.identities node) es) r')
  | [], _, _, _, h, _ => h
  | e :: rest, _, _, _, h, hs => Expr.resolveAll_abreast rest (e.resolve_abreast h hs.1) hs.2

theorem Stmt.resolve_abreast : ∀ (s : Stmt) {layers : Layers} {r r' : Resolver}, Resolver.Abreast layers r r' → s.Shaped →
    (s.declared? ≠ none → layers.Level) →
    Resolver.Abreast layers (s.resolve r) ((s.relabel (.identities node)).resolve r')
  | .expression value, _, _, _, h, hs, _ => value.resolve_abreast h hs
  | .print _ values, _, _, _, h, hs, _ => Expr.resolveAll_abreast values h hs
  | .varDecl name none, _, _, _, h, _, hl => h.introduce (hl nofun) name
  | .varDecl name (some value), _, _, _, h, hs, hl =>
    (value.resolve_abreast (h.declare (hl nofun) name) hs).define (hl nofun) name
  | .block body, _, _, _, h, hs, _ => (Stmt.resolveAll_abreast body h.openScope hs trivial).closeScope
  | .ifElse condition yes none, _, _, _, h, hs, _ =>
    yes.resolve_abreast (condition.resolve_abreast h hs.1) hs.2.2 (absurd hs.2.1)
  | .ifElse condition yes (some no), _, _, _, h, hs, _ =>
    no.resolve_abreast (yes.resolve_abreast (condition.resolve_abreast h hs.1) hs.2.1.2 (absurd hs.2.1.1)) hs.2.2.2
      (absurd hs.2.2.1)
  | .whileLoop condition body, _, _, _, h, hs, _ =>
    (body.resolve_abreast ((condition.resolve_abreast h hs.1).looped (· + 1)) hs.2.2 (absurd hs.2.1)).looped (· - 1)
  | .function ⟨name, params, body⟩, _, _, _, h, hs, hl =>
    Routine.resolve_abreast .function ⟨name, params, body⟩ (h.introduce (hl nofun) name) hs
  | .breakLoop keyword, _, r, r', h, _, _ => by
    rw [Stmt.relabel, Stmt.resolve, Stmt.resolve, h.loops]
    split
    · exact h.refuse keyword .breakOutsideLoop
    · exact h
  | .returnValue keyword none, _, _, _, h, _, _ => h.checkReturn keyword
  | .returnValue keyword (some value), _, _, _, h, hs, _ => value.resolve_abreast (h.checkReturn keyword) hs
  | .classDecl name none methods, _, _, _, h, hs, hl =>
    (Routine.resolveMethods_abreast methods ((h.enterClass (hl nofun) name).openReceiver name) hs).closeScope.inClassBody
      h.inClass
  | .classDecl name (some parent) methods, _, _, _, h, hs, hl => by
    obtain ⟨⟨id, token, rfl⟩, hs⟩ := hs
    have hparent := (((h.enterClass (hl nofun) name).checkParent name token).checkRead token).refer id (node id) token
    exact (Routine.resolveMethods_abreast methods (hparent.openReceiver name) hs).closeScope.inClassBody h.inClass
  | .useLibrary _ _, _, _, _, h, _, _ => h

theorem Stmt.resolveAll_abreast : ∀ (body : List Stmt) {layers : Layers} {r r' : Resolver}, Resolver.Abreast layers r r' →
    Stmt.AllShaped body → layers.Level →
    Resolver.Abreast layers (Stmt.resolveAll body r) (Stmt.resolveAll (Stmt.relabelAll (.identities node) body) r')
  | [], _, _, _, h, _, _ => h
  | s :: rest, _, _, _, h, hs, hl =>
    Stmt.resolveAll_abreast rest (s.resolve_abreast h hs.1 fun _ => hl) hs.2 hl

theorem Routine.resolve_abreast (kind : Enclosing) : ∀ (routine : Routine) {layers : Layers} {r r' : Resolver},
    Resolver.Abreast layers r r' → routine.Shaped →
    Resolver.Abreast layers (routine.resolve kind r) ((routine.relabel (.identities node)).resolve kind r')
  | ⟨_, params, body⟩, _, r, r', h, hs => by
    have hbody := (Stmt.resolveAll_abreast body (h.enter kind params) hs trivial).closeScope
    rw [Routine.relabel, Token.map_relabel_identities, Routine.resolve, Routine.resolve, h.enclosing, h.loops]
    exact hbody.inBody r.enclosing r.loops

theorem Routine.resolveMethods_abreast : ∀ (methods : List Routine) {layers : Layers} {r r' : Resolver},
    Resolver.Abreast layers r r' → Routine.AllShaped methods →
    Resolver.Abreast layers (Routine.resolveMethods methods r)
      (Routine.resolveMethods (Routine.relabelAll (.identities node) methods) r')
  | [], _, _, _, h, _ => h
  | ⟨name, params, body⟩ :: rest, _, _, _, h, hs =>
    Routine.resolveMethods_abreast rest (Routine.resolve_abreast _ ⟨name, params, body⟩ h hs.1) hs.2

end

/-! ### Distances in both tables -/

/-- The table has for each visit the distance that it finds. -/
def Distances.Holds (d : Distances) (visits : List Visit) : Prop :=
  ∀ v ∈ visits, d.find? v.reference.id = distance? v.scopes v.name

variable {d d' : Distances}

theorem Distances.Holds.split {visits more : List Visit} (h : d.Holds (visits ++ more)) : d.Holds visits ∧ d.Holds more :=
  List.forall_mem_append.mp h

theorem Distances.Holds.first {v : Visit} {visits : List Visit} (h : d.Holds (v :: visits)) : d.Holds [v] :=
  List.forall_mem_singleton.mpr (h v List.mem_cons_self)

theorem Distances.Holds.rest {v : Visit} {visits : List Visit} (h : d.Holds (v :: visits)) : d.Holds visits :=
  fun w hw => h w (List.mem_cons_of_mem v hw)

/-- References that are met among scopes side by side find the same. -/
theorem Abreast.refers {layers : Layers} {scopes scopes' : List Scope} (h : Abreast layers scopes scopes')
    {reference reference' : Reference} {around around' : List Initializing}
    (hd : d.Holds [⟨reference, scopes, around⟩]) (hd' : d'.Holds [⟨reference', scopes', around'⟩])
    (hname : reference'.token.lexeme = reference.token.lexeme) : Refers d d' layers reference.id reference'.id := by
  have hn := hd _ (List.mem_singleton_self _)
  have hn' := hd' _ (List.mem_singleton_self _)
  unfold Visit.name at hn hn'
  rw [hname] at hn'
  unfold Refers
  rw [hn, hn']
  obtain ⟨h, h'⟩ | ⟨n, n', h, h', halong⟩ := h.distance? reference.token.lexeme
  · rw [h, h']
    rfl
  · rw [h, h', Option.map_some, Option.map_some, halong]

mutual

theorem Expr.matches_copy : ∀ (e : Expr) {layers : Layers} {around around' : List Initializing} {r r' : Resolver},
    Resolver.Abreast layers r r' → e.Shaped → d.Holds (e.visits around r) →
    d'.Holds ((e.relabel (.identities node)).visits around' r') →
    Expr.Matches d d' layers e (e.relabel (.identities node))
  | .literal _, _, _, _, _, _, _, _, _, _ => .literal
  | .array _ _, _, _, _, _, _, _, _, _, _ => .array
  | .unary _ right, _, _, _, _, _, h, hs, hd, hd' => .unary (right.matches_copy h hs hd hd')
  | .binary left _ right, _, _, _, _, _, h, hs, hd, hd' =>
    .binary (left.matches_copy h hs.1 hd.split.1 hd'.split.1)
      (right.matches_copy (left.resolve_abreast h hs.1) hs.2 hd.split.2 hd'.split.2)
  | .logical left _ right, _, _, _, _, _, h, hs, hd, hd' =>
    .logical (left.matches_copy h hs.1 hd.split.1 hd'.split.1)
      (right.matches_copy (left.resolve_abreast h hs.1) hs.2 hd.split.2 hd'.split.2)
  | .grouping inner, _, _, _, _, _, h, hs, hd, hd' => .grouping (inner.matches_copy h hs hd hd')
  | .var _ _, _, _, _, _, _, h, _, hd, hd' => .var (h.scopes.refers hd hd' rfl)
  | .global _, _, _, _, _, _, _, _, _, _ => .global
  | .assign _ _ value, _, _, _, _, _, h, hs, hd, hd' =>
    .assign ((value.resolve_abreast h hs).scopes.refers hd.split.2 hd'.split.2 rfl)
      (value.matches_copy h hs hd.split.1 hd'.split.1)
  | .ternary condition _ yes no, _, _, _, _, _, h, hs, hd, hd' =>
    have hyes := condition.resolve_abreast h hs.1
    .ternary (condition.matches_copy h hs.1 hd.split.1.split.1 hd'.split.1.split.1)
      (yes.matches_copy hyes hs.2.1 hd.split.1.split.2 hd'.split.1.split.2)
      (no.matches_copy (yes.resolve_abreast hyes hs.2.1) hs.2.2 hd.split.2 hd'.split.2)
  | .call callee _ arguments, _, _, _, _, _, h, hs, hd, hd' =>
    .call (callee.matches_copy h hs.1 hd.split.1 hd'.split.1)
      (Expr.allMatch_copy arguments (callee.resolve_abreast h hs.1) hs.2 hd.split.2 hd'.split.2)
  | .lambda routine, _, _, _, _, _, h, hs, hd, hd' => .lambda (routine.matches_copy h hs hd hd')
  | .get object _, _, _, _, _, _, h, hs, hd, hd' => .get (object.matches_copy h hs hd hd')
  | .set object _ value, _, _, _, _, _, h, hs, hd, hd' =>
    .set (object.matches_copy (value.resolve_abreast h hs.2) hs.1 hd.split.2 hd'.split.2)
      (value.matches_copy h hs.2 hd.split.1 hd'.split.1)
  | .this _ _, _, _, _, _, _, h, _, hd, hd' => .this (h.scopes.refers hd hd' rfl)
  | .subscript id name index, _, _, _, _, _, h, hs, hd, hd' =>
    .subscript (h.scopes.refers hd.first hd'.first rfl)
      (index.matches_copy ((h.checkRead name).refer id (node id) name) hs hd.rest hd'.rest)

theorem Expr.allMatch_copy : ∀ (es : List Expr) {layers : Layers} {around around' : List Initializing}
    {r r' : Resolver}, Resolver.Abreast layers r r' → Expr.AllShaped es → d.Holds (Expr.allVisits around es r) →
    d'.Holds (Expr.allVisits around' (Expr.relabelAll (.identities node) es) r') →
    Expr.AllMatch d d' layers es (Expr.relabelAll (.identities node) es)
  | [], _, _, _, _, _, _, _, _, _ => .nil
  | e :: rest, _, _, _, _, _, h, hs, hd, hd' =>
    .cons (e.matches_copy h hs.1 hd.split.1 hd'.split.1)
      (Expr.allMatch_copy rest (e.resolve_abreast h hs.1) hs.2 hd.split.2 hd'.split.2)

theorem Stmt.matches_copy : ∀ (s : Stmt) {layers : Layers} {around around' : List Initializing} {r r' : Resolver},
    Resolver.Abreast layers r r' → s.Shaped → (s.declared? ≠ none → layers.Level) → d.Holds (s.visits around r) →
    d'.Holds ((s.relabel (.identities node)).visits around' r') →
    Stmt.Matches d d' layers s (s.relabel (.identities node))
  | .expression value, _, _, _, _, _, h, hs, _, hd, hd' => .expression (value.matches_copy h hs hd hd')
  | .print _ values, _, _, _, _, _, h, hs, _, hd, hd' => .print (Expr.allMatch_copy values h hs hd hd')
  | .varDecl _ none, _, _, _, _, _, _, _, hl, _, _ => .varUnset (hl nofun)
  | .varDecl name (some value), _, _, _, _, _, h, hs, hl, hd, hd' =>
    .varSet (hl nofun) (value.matches_copy (h.declare (hl nofun) name) hs hd hd')
  | .block body, _, _, _, _, _, h, hs, _, hd, hd' => .block (Stmt.allMatch_copy body h.openScope hs trivial hd hd')
  | .ifElse condition yes none, _, _, _, _, _, h, hs, _, hd, hd' =>
    .ifOnly (condition.matches_copy h hs.1 hd.split.1 hd'.split.1)
      (yes.matches_copy (condition.resolve_abreast h hs.1) hs.2.2 (absurd hs.2.1) hd.split.2 hd'.split.2)
  | .ifElse condition yes (some no), _, _, _, _, _, h, hs, _, hd, hd' =>
    have hyes := condition.resolve_abreast h hs.1
    have hno := yes.resolve_abreast hyes hs.2.1.2 (absurd hs.2.1.1)
    .ifElse (condition.matches_copy h hs.1 hd.split.1.split.1 hd'.split.1.split.1)
      (yes.matches_copy hyes hs.2.1.2 (absurd hs.2.1.1) hd.split.1.split.2 hd'.split.1.split.2)
      (no.matches_copy hno hs.2.2.2 (absurd hs.2.2.1) hd.split.2 hd'.split.2)
  | .whileLoop condition body, _, _, _, _, _, h, hs, _, hd, hd' =>
    .whileLoop (condition.matches_copy h hs.1 hd.split.1 hd'.split.1)
      (body.matches_copy ((condition.resolve_abreast h hs.1).looped (· + 1)) hs.2.2 (absurd hs.2.1) hd.split.2 hd'.split.2)
  | .function ⟨name, params, body⟩, _, _, _, _, _, h, hs, hl, hd, hd' =>
    .function (hl nofun) (Routine.matches_copy ⟨name, params, body⟩ (h.introduce (hl nofun) name) hs hd hd')
  | .breakLoop _, _, _, _, _, _, _, _, _, _, _ => .breakLoop
  | .returnValue _ none, _, _, _, _, _, _, _, _, _, _ => .returnNothing
  | .returnValue keyword (some value), _, _, _, _, _, h, hs, _, hd, hd' =>
    .returnValue (value.matches_copy (h.checkReturn keyword) hs hd hd')
  | .classDecl name none methods, _, _, _, _, _, h, hs, hl, hd, hd' =>
    .classOnly (hl nofun)
      (Routine.allMatch_copy methods ((h.enterClass (hl nofun) name).openReceiver name) hs hd hd')
  | .classDecl name (some parent) methods, _, _, _, _, _, h, hs, hl, hd, hd' => by
    obtain ⟨⟨id, token, rfl⟩, hs⟩ := hs
    have hparent := (((h.enterClass (hl nofun) name).checkParent name token).checkRead token).refer id (node id) token
    exact .classBelow (hl nofun) (.var ((h.enterClass (hl nofun) name).scopes.refers hd.split.1 hd'.split.1 rfl))
      (Routine.allMatch_copy methods (hparent.openReceiver name) hs hd.split.2 hd'.split.2)
  | .useLibrary _ _, _, _, _, _, _, _, _, _, _, _ => .useLibrary

theorem Stmt.allMatch_copy : ∀ (body : List Stmt) {layers : Layers} {around around' : List Initializing}
    {r r' : Resolver}, Resolver.Abreast layers r r' → Stmt.AllShaped body → layers.Level →
    d.Holds (Stmt.allVisits around body r) →
    d'.Holds (Stmt.allVisits around' (Stmt.relabelAll (.identities node) body) r') →
    Stmt.AllMatch d d' layers body (Stmt.relabelAll (.identities node) body)
  | [], _, _, _, _, _, _, _, _, _, _ => .nil
  | s :: rest, _, _, _, _, _, h, hs, hl, hd, hd' =>
    .cons (s.matches_copy h hs.1 (fun _ => hl) hd.split.1 hd'.split.1)
      (Stmt.allMatch_copy rest (s.resolve_abreast h hs.1 fun _ => hl) hs.2 hl hd.split.2 hd'.split.2)

theorem Routine.matches_copy : ∀ (routine : Routine) {layers : Layers} {around around' : List Initializing}
    {kind : Enclosing} {r r' : Resolver}, Resolver.Abreast layers r r' → routine.Shaped →
    d.Holds (routine.visits around kind r) →
    d'.Holds ((routine.relabel (.identities node)).visits around' kind r') →
    Routine.Matches d d' layers routine (routine.relabel (.identities node))
  | ⟨_, params, body⟩, _, _, _, kind, _, _, h, hs, hd, hd' => by
    rw [Routine.relabel, Token.map_relabel_identities] at hd' ⊢
    exact .mk (Stmt.allMatch_copy body (h.enter kind params) hs trivial hd hd')

theorem Routine.allMatch_copy : ∀ (methods : List Routine) {layers : Layers} {around around' : List Initializing}
    {r r' : Resolver}, Resolver.Abreast layers r r' → Routine.AllShaped methods →
    d.Holds (Routine.methodVisits around methods r) →
    d'.Holds (Routine.methodVisits around' (Routine.relabelAll (.identities node) methods) r') →
    Routine.AllMatch d d' layers methods (Routine.relabelAll (.identities node) methods)
  | [], _, _, _, _, _, _, _, _, _ => .nil
  | ⟨name, params, body⟩ :: rest, _, _, _, _, _, h, hs, hd, hd' =>
    .cons (Routine.matches_copy ⟨name, params, body⟩ h hs.1 hd.split.1 hd'.split.1)
      (Routine.allMatch_copy rest (Routine.resolve_abreast _ ⟨name, params, body⟩ h hs.1) hs.2 hd.split.2 hd'.split.2)

end

end Treewalk
