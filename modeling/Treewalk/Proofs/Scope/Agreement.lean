import Treewalk.Proofs.Machine.Running
import Treewalk.Proofs.Scope.Placement

/-!
While a checked program runs, the current frame mirrors the scopes in which the check met whatever runs. One task is
followed at a time: if it stands in frames that mirror its scopes, so do all tasks that it asks for, and when it ends
the machine is back in the same frame of a heap that is still sound.
-/

namespace Treewalk

open Resolver

/-- The machine went on: it is in the same frame, with the same distances, and its heap has grown and is still
sound. -/
structure Onward (known : List Visit) (m m' : Machine) : Prop where
  frame : m'.frame = m.frame
  distances : m'.distances = m.distances
  heap : Heap.Enlarges known m.heap m'.heap

instance (known : List Visit) : Lasting (Onward known) where
  refl _ := ⟨rfl, rfl, Heap.Enlarges.refl _⟩
  trans a b := ⟨b.frame.trans a.frame, b.distances.trans a.distances, a.heap.trans b.heap⟩

/-- The heap is sound, and the distances of all known visits are recorded. -/
structure Machine.Sound (known : List Visit) (m : Machine) : Prop where
  heap : m.heap.Sound known
  recorded : ∀ v ∈ known, m.distances.find? v.reference.id = distance? v.scopes v.name

/-- The machine stands in frames that mirror open scopes with the given names. -/
structure Machine.Stands (known : List Visit) (around : List Initializing) (names : List (List String))
    (m : Machine) : Prop where
  sound : m.Sound known
  mirrors : m.heap.Mirrors around m.frame names

/-- The expression is checked without a fault in the given state, and its visits are known. -/
structure Expr.Ready (known : List Visit) (around : List Initializing) (r : Resolver) (e : Expr) : Prop where
  shaped : e.Shaped
  clean : (e.resolve r).Clean
  visits : e.visits around r ⊆ known

/-- The expressions are checked without a fault, and their visits are known. -/
structure Expr.AllReady (known : List Visit) (around : List Initializing) (r : Resolver) (es : List Expr) : Prop where
  shaped : Expr.AllShaped es
  clean : (Expr.resolveAll es r).Clean
  visits : Expr.allVisits around es r ⊆ known

/-- The statement is checked without a fault, and its visits are known. -/
structure Stmt.Ready (known : List Visit) (around : List Initializing) (r : Resolver) (s : Stmt) : Prop where
  shaped : s.Shaped
  clean : (s.resolve r).Clean
  visits : s.visits around r ⊆ known

/-- The statements are checked without a fault, and their visits are known. -/
structure Stmt.AllReady (known : List Visit) (around : List Initializing) (r : Resolver) (body : List Stmt) :
    Prop where
  shaped : Stmt.AllShaped body
  clean : (Stmt.resolveAll body r).Clean
  visits : Stmt.allVisits around body r ⊆ known

/-- The frames of the machine mirror the scopes of a visit. What need not be bound yet are variables in whose
initializers it stands, and names other than its own. -/
def Visit.Mirrored (v : Visit) (m : Machine) : Prop :=
  ∃ unbound : List Initializing, m.heap.Mirrors unbound m.frame (v.scopes.map (·.map (·.token.lexeme))) ∧
    ∀ x ∈ unbound, x.name = v.name → x ∈ v.initializing

/-- A reference was visited in scopes that the frames mirror. -/
def Machine.Refers (known : List Visit) (m : Machine) (reference : Reference) : Prop :=
  ∃ v ∈ known, v.reference = reference ∧ v.Mirrored m

/-- The task stands in frames that mirror its scopes. A superclass is met with its class declared but not bound, so
that it is known as a reference only. -/
def Task.Placed (known : List Visit) (m : Machine) : Task → Prop
  | .evaluate e => (∃ around r, e.Ready known around r ∧ m.Stands known around r.names) ∨
      ∃ id token, e = .var id token ∧ m.Sound known ∧ m.Refers known ⟨.var, id, token⟩
  | .execute s => ∃ around r, s.Ready known around r ∧ m.Stands known around r.names
  | .invoke _ _ _ => m.Sound known

variable {known : List Visit} {around : List Initializing} {names : List (List String)} {r : Resolver} {m m' : Machine}

theorem Machine.Sound.onward (hm : m.Sound known) (ho : Onward known m m') : m'.Sound known :=
  ⟨ho.heap.sound hm.heap, by rw [ho.distances]; exact hm.recorded⟩

theorem Machine.Stands.onward (hm : m.Stands known around names) (ho : Onward known m m') :
    m'.Stands known around names :=
  ⟨hm.sound.onward ho, by rw [ho.frame]; exact hm.mirrors.grow ho.heap.grows⟩

theorem Visit.Mirrored.onward {v : Visit} (hv : v.Mirrored m) (ho : Onward known m m') : v.Mirrored m' := by
  obtain ⟨unbound, hm, hown⟩ := hv
  exact ⟨unbound, by rw [ho.frame]; exact hm.grow ho.heap.grows, hown⟩

/-- As many links as the visit had open scopes, and no other number, lead to the outermost frame. -/
theorem Visit.Mirrored.ancestor?_iff {v : Visit} (hv : v.Mirrored m) (hs : m.Sound known) (n : Nat) :
    m.heap.ancestor? m.frame n = some globalFrame ↔ n = v.scopes.length := by
  obtain ⟨unbound, hm, -⟩ := hv
  rw [hm.ancestor?_eq_globalFrame_iff hs.heap.parent?_globalFrame, List.length_map]

/-- The frame at the distance of a visit binds its name, unless it stands in its own initializer. -/
theorem Visit.Mirrored.target {v : Visit} (hv : v.Mirrored m) {d : Nat} (hd : distance? v.scopes v.name = some d) :
    ∃ frame, m.heap.ancestor? m.frame d = some frame ∧ frame ≠ globalFrame ∧
      (¬v.InOwnInitializer d → (m.heap.getOwn? frame v.name).isSome) := by
  obtain ⟨unbound, hm, hown⟩ := hv
  rw [distance?_eq] at hd
  obtain ⟨frame, hframe, hne, hbound⟩ := hm.ancestor?_distance hd
  refine ⟨frame, hframe, hne, fun hout => hbound.resolve_right ?_⟩
  rintro ⟨x, hx, hname, hdepth⟩
  rw [List.length_map] at hdepth
  exact hout ⟨x, hown x hx hname, hname, hdepth⟩

/-! ### Parts of what is ready -/

theorem Expr.Ready.split {left right : Expr} (hl : left.Shaped) (hr : right.Shaped)
    (hclean : (right.resolve (left.resolve r)).Clean)
    (hvisits : left.visits around r ++ right.visits around (left.resolve r) ⊆ known) :
    left.Ready known around r ∧ right.Ready known around (left.resolve r) ∧ (left.resolve r).names = r.names :=
  ⟨⟨hl, hclean.of_findings (right.walk around _ hr).findings, (List.append_subset.mp hvisits).1⟩,
    ⟨hr, hclean, (List.append_subset.mp hvisits).2⟩, (left.walk around r hl).names_eq⟩

theorem Expr.AllReady.split {e : Expr} {es : List Expr} (h : Expr.AllReady known around r (e :: es)) :
    e.Ready known around r ∧ Expr.AllReady known around (e.resolve r) es ∧ (e.resolve r).names = r.names :=
  ⟨⟨h.shaped.1, h.clean.of_findings (Expr.allWalk es around _ h.shaped.2).findings,
      (List.append_subset.mp h.visits).1⟩,
    ⟨h.shaped.2, h.clean, (List.append_subset.mp h.visits).2⟩, (e.walk around r h.shaped.1).names_eq⟩

theorem Stmt.AllReady.split {s : Stmt} {body : List Stmt} (h : Stmt.AllReady known around r (s :: body)) :
    s.Ready known around r ∧ Stmt.AllReady known around (s.resolve r) body ∧
      (s.resolve r).names = declareIn r.names s.declared? :=
  ⟨⟨h.shaped.1, h.clean.of_findings (Stmt.allWalk body around _ h.shaped.2).findings,
      (List.append_subset.mp h.visits).1⟩,
    ⟨h.shaped.2, h.clean, (List.append_subset.mp h.visits).2⟩, (s.walk around r h.shaped.1).names_eq⟩

/-- Behind its superclass a class that was not refused differs from it in name. -/
theorem Resolver.Clean.lexeme_ne {name token : Token} {id : NodeId}
    (h : (r.afterSuperclass name (some (.var id token))).Clean) : token.lexeme ≠ name.lexeme := by
  intro heq
  have hread := Walk.read [] (({ r with inClass := true }.introduce name).refuse token .inheritsItself) .var id token
  simp only [afterSuperclass, heq, beq_self_eq_true, if_true] at h
  exact h.of_findings hread.findings token .inheritsItself (List.mem_append_right _ (List.mem_singleton_self _))

/-- Each method of a class was checked in scopes of the same names. -/
theorem Routine.checked_of_mem : ∀ {methods : List Routine} {r : Resolver}, Routine.AllShaped methods →
    (Routine.resolveMethods methods r).Clean → Routine.methodVisits around methods r ⊆ known →
    ∀ routine ∈ methods, ∃ kind r', routine.Checked known around kind r' ∧ r'.names = r.names
  | first :: rest, r, hs, hc, hv, routine, hmem => by
    obtain ⟨hv₁, hv₂⟩ := List.append_subset.mp hv
    rcases List.mem_cons.mp hmem with rfl | hmem
    · exact ⟨_, r, ⟨hs.1, hc.of_findings (Routine.methodWalk rest around _ hs.2).findings, hv₁⟩, rfl⟩
    · obtain ⟨kind, r', hchecked, hnames⟩ := Routine.checked_of_mem hs.2 hc hv₂ routine hmem
      exact ⟨kind, r', hchecked, hnames.trans (first.walk _ around r hs.1).names_eq⟩

/-- What holds of a class that is ready, apart from its superclass. -/
theorem Stmt.Ready.classDecl {name : Token} {superclass : Option Expr} {methods : List Routine}
    (h : (Stmt.classDecl name superclass methods).Ready known around r) :
    (r.afterSuperclass name superclass).Clean ∧
      (r.afterSuperclass name superclass).names = declareName name.lexeme r.names ∧
      ∀ routine ∈ methods, ∃ kind r', routine.Checked known around kind r' ∧
        r'.names = [receiverName] :: declareName name.lexeme r.names := by
  have hmethods : Routine.AllShaped methods ∧ Routine.methodVisits around methods
      ((r.afterSuperclass name superclass).openReceiver name) ⊆ known ∧
      (r.afterSuperclass name superclass).names = declareName name.lexeme r.names ∧
      (Routine.resolveMethods methods ((r.afterSuperclass name superclass).openReceiver name)).Clean := by
    cases superclass with
    | none =>
      exact ⟨h.shaped, h.visits, names_introduce _ name, Clean.of_findings h.clean (Silent.closeScope _).findings⟩
    | some parent =>
      obtain ⟨⟨id, token, rfl⟩, hshaped⟩ := h.shaped
      exact ⟨hshaped, (List.append_subset.mp h.visits).2, (Walk.superclass around r name id token).names_eq,
        Clean.of_findings h.clean (Silent.closeScope _).findings⟩
  obtain ⟨hshaped, hvisits, hnames, hclean⟩ := hmethods
  have hwalk := Routine.methodWalk methods around ((r.afterSuperclass name superclass).openReceiver name) hshaped
  refine ⟨(hclean.of_findings hwalk.findings), hnames, fun routine hmem => ?_⟩
  obtain ⟨kind, r', hchecked, hnames'⟩ := Routine.checked_of_mem hshaped hclean hvisits routine hmem
  exact ⟨kind, r', hchecked, hnames'.trans (by rw [names_openReceiver, hnames]; rfl)⟩

/-! ### Elementary runs -/

theorem Onward.of_heap (heap : Heap) (h : Heap.Enlarges known m.heap heap) : Onward known m { m with heap } :=
  ⟨rfl, rfl, h⟩

/-- Changes of the channels and of the notices leave frames and heap alone. -/
theorem Onward.of_eq (hframe : m'.frame = m.frame) (hdistances : m'.distances = m.distances)
    (hheap : m'.heap = m.heap) : Onward known m m' :=
  ⟨hframe, hdistances, by rw [hheap]; exact Heap.Enlarges.refl _⟩

theorem steady_lookUp (id : NodeId) (name : Token) :
    Steady (Onward known) m (Run.lookUp id name) (Run.lookUp id name) fun _ _ => True := by
  refine ⟨rfl, ?_⟩
  unfold Run.lookUp
  cases m.lookUp? id name.lexeme with
  | some value => exact ⟨Lasting.refl m, trivial⟩
  | none => exact Lasting.refl m

theorem steady_assign (id : NodeId) (name : Token) (value : Value) :
    Steady (Onward known) m (Run.assign id name value) (Run.assign id name value) fun _ _ => True := by
  refine ⟨rfl, ?_⟩
  unfold Run.assign
  cases m.target? id name.lexeme with
  | some frame => exact ⟨Onward.of_heap _ (Heap.Enlarges.define _ _ _ _), trivial⟩
  | none => exact Lasting.refl m

/-- A statement that binds its name in the current frame declares it. -/
theorem steady_define (hm : m.Stands known around names) (name : String) (value : Value) :
    Steady (Onward known) m (Run.define name value) (Run.define name value)
      fun _ m' => m'.Stands known around (declareName name names) := by
  have ho : Onward known m (m.define m.frame name value) :=
    Onward.of_heap _ (Heap.Enlarges.define m.heap m.frame name value)
  exact Steady.change ho ⟨hm.sound.onward ho, hm.mirrors.define name value⟩

/-- A variable is bound behind its initializer. -/
theorem steady_defineInitialized {name : String} (hm : m.Stands known (⟨name, names.length⟩ :: around) names)
    (value : Value) : Steady (Onward known) m (Run.define name value) (Run.define name value)
      fun _ m' => m'.Stands known around names := by
  have ho : Onward known m (m.define m.frame name value) :=
    Onward.of_heap _ (Heap.Enlarges.define m.heap m.frame name value)
  refine Steady.change ho ⟨hm.sound.onward ho, (hm.onward ho).mirrors.discharge fun hne => ?_⟩
  obtain ⟨f, hf⟩ := hm.mirrors.exists_frame hne
  exact Option.isSome_iff_exists.mpr ⟨value, Heap.getOwn?_define_self hf name value⟩

theorem steady_property (hm : m.heap.Sound known) (id : InstanceId) (name : String) (line : Nat) :
    Steady (Onward known) m (Run.property id name line) (Run.property id name line) fun _ _ => True := by
  refine Steady.bind (P := fun x m' => m' = m ∧ x = m.heap.property? id name) (Steady.look ⟨rfl, rfl⟩) ?_
  rintro x m₁ - ⟨rfl, hx⟩
  match x, hx with
  | some (.field value), _ => exact Steady.pure trivial
  | some (.method method), hx =>
    have hmethod : method.PlacedAsMethod known m₁.heap := by
      obtain ⟨i, -, hi⟩ := Option.bind_eq_some_iff.mp hx.symm
      split at hi
      · cases hi
      · obtain ⟨f, hf, hmethod⟩ := Option.map_eq_some_iff.mp hi
        cases hmethod
        exact hm.findMethod? hf
    exact Steady.onHeap (Onward.of_heap _ (Heap.Enlarges.bindValue hmethod id)) trivial
  | none, _ => exact Steady.fail _ _

theorem steady_printLine (text : String) (line : Nat) :
    Steady (Onward known) m (Run.printLine text line) (Run.printLine text line) fun _ _ => True := by
  refine ⟨rfl, ?_⟩
  unfold Run.printLine
  rcases m.sink.writeLine text with ⟨sink, _ | reason⟩
  · exact ⟨Onward.of_eq rfl rfl rfl, trivial⟩
  · exact Onward.of_eq rfl rfl rfl

theorem steady_readWord (line : Nat) :
    Steady (Onward known) m (Run.readWord line) (Run.readWord line) fun _ _ => True := by
  refine ⟨rfl, ?_⟩
  unfold Run.readWord
  rcases m.input.takeWord with ⟨reason | (_ | text), input⟩
  · exact Onward.of_eq rfl rfl rfl
  · exact ⟨Onward.of_eq rfl rfl rfl, trivial⟩
  · exact ⟨Onward.of_eq rfl rfl rfl, trivial⟩

theorem steady_ofNative (result : Except NativeFault Value) (line : Nat) :
    Steady (Onward known) m (Run.ofNative result line) (Run.ofNative result line) fun _ _ => True := by
  unfold Run.ofNative
  cases result with
  | ok value => exact Steady.pure trivial
  | error fault => exact Steady.fail _ _

theorem steady_callHost (index : Nat) (arguments : List Value) (line : Nat) :
    Steady (Onward known) m (Run.callHost index arguments line) (Run.callHost index arguments line)
      fun _ _ => True := by
  refine ⟨rfl, ?_⟩
  unfold Run.callHost
  cases m.host[index]? with
  | none => exact ⟨Lasting.refl m, trivial⟩
  | some f =>
    cases hf : f arguments with
    | ok literal => simp only [hf]; exact ⟨Lasting.refl m, trivial⟩
    | error message => simp only [hf]; exact Lasting.refl m

theorem steady_callPrimitive (primitive : Primitive) (arguments : List Value) (line : Nat) :
    Steady (Onward known) m (Run.callPrimitive primitive arguments line) (Run.callPrimitive primitive arguments line)
      fun _ _ => True := by
  cases primitive with
  | clock => exact Steady.of_done rfl (Onward.of_eq rfl rfl rfl) trivial
  | readWord => exact steady_readWord line
  | host index => exact steady_callHost index arguments line
  | _ => exact steady_ofNative _ line

theorem steady_useLibrary (path : Token) :
    Steady (Onward known) m (Run.useLibrary path) (Run.useLibrary path) fun _ _ => True := by
  refine Steady.change ?_ trivial
  dsimp only
  split
  · exact Onward.of_heap _ (Heap.Enlarges.define _ _ _ _)
  · exact Onward.of_eq rfl rfl rfl

/-! ### Answers -/

/-- The performer keeps machines in their frames and heaps sound, and a statement that ends leaves its name bound. -/
structure Performer.Keeps (known : List Visit) (p : Performer) : Prop where
  evaluate : ∀ e m, Task.Placed known m (.evaluate e) →
    (p (.evaluate e) m).Within (Onward known) m fun _ _ => True
  execute : ∀ s around r m, Stmt.Ready known around r s → m.Stands known around r.names →
    (p (.execute s) m).Within (Onward known) m fun _ m' => m'.Stands known around (declareIn r.names s.declared?)
  invoke : ∀ callee arguments line m, m.Sound known →
    (p (.invoke callee arguments line) m).Within (Onward known) m fun _ _ => True

section Tasks
variable {p q : Performer} (hp : p.Keeps known) (hq : ∀ t n, Task.Placed known n t → q t n = p t n)
include hp hq

theorem steady_evaluate {e : Expr} (h : e.Ready known around r) (hm : m.Stands known around r.names) :
    Steady (Onward known) m (Evaluation.evaluate p e) (Evaluation.evaluate q e) fun _ _ => True :=
  have hplaced : Task.Placed known m (.evaluate e) := Or.inl ⟨around, r, h, hm⟩
  ⟨hq _ _ hplaced, hp.evaluate e m hplaced⟩

theorem steady_execute {s : Stmt} (h : s.Ready known around r) (hm : m.Stands known around r.names) :
    Steady (Onward known) m (Evaluation.execute p s) (Evaluation.execute q s)
      fun _ m' => m'.Stands known around (declareIn r.names s.declared?) :=
  ⟨hq _ _ ⟨around, r, h, hm⟩, hp.execute s around r m h hm⟩

theorem steady_invoke (callee : Value) (arguments : List Value) (line : Nat) (hm : m.Sound known) :
    Steady (Onward known) m (p (.invoke callee arguments line)) (q (.invoke callee arguments line)) fun _ _ => True :=
  ⟨hq _ _ hm, hp.invoke callee arguments line m hm⟩

theorem steady_evaluateAll : ∀ {es : List Expr} {r : Resolver} {m : Machine}, Expr.AllReady known around r es →
    m.Stands known around r.names →
    Steady (Onward known) m (Evaluation.evaluateAll p es) (Evaluation.evaluateAll q es) fun _ _ => True
  | [], _, _, _, _ => Steady.pure trivial
  | e :: es, r, m, h, hm => by
    obtain ⟨he, hes, hnames⟩ := h.split
    refine Steady.bind (steady_evaluate hp hq he hm) fun value m₁ h₁ _ => ?_
    have hm₁ : m₁.Stands known around (e.resolve r).names := hnames ▸ hm.onward h₁
    exact Steady.bind (steady_evaluateAll hes hm₁) fun values m₂ _ _ => Steady.pure trivial

theorem steady_executeAll : ∀ {body : List Stmt} {r : Resolver} {m : Machine}, Stmt.AllReady known around r body →
    m.Stands known around r.names →
    Steady (Onward known) m (Evaluation.executeAll p body) (Evaluation.executeAll q body) fun _ _ => True
  | [], _, _, _, _ => Steady.pure trivial
  | s :: body, r, m, h, hm => by
    obtain ⟨hs, hbody, hnames⟩ := h.split
    rw [Evaluation.executeAll_cons, Evaluation.executeAll_cons]
    refine Steady.bind (steady_execute hp hq hs hm) fun _ m₁ h₁ hm₁ => ?_
    exact steady_executeAll hbody (hnames ▸ hm₁)

/-! ### Expressions -/

omit hp hq in
theorem steady_makeFunction {routine : Routine} (h : (Expr.lambda routine).Ready known around r)
    (hm : m.Stands known around r.names) :
    Steady (Onward known) m (Run.makeFunction routine) (Run.makeFunction routine) fun _ _ => True := by
  refine Steady.of_done rfl (Onward.of_heap _ ⟨Heap.Grows.of_frames rfl, fun hs => ?_⟩) trivial
  refine hs.addClosure (Heap.Grows.refl _) rfl rfl ?_
  exact ⟨around, .function, r, ⟨h.shaped, h.clean, h.visits⟩, hm.mirrors.grow (Heap.Grows.of_frames rfl)⟩

theorem steady_evaluation {e : Expr} (h : e.Ready known around r) (hm : m.Stands known around r.names) :
    Steady (Onward known) m (Evaluation.evaluation p e) (Evaluation.evaluation q e) fun _ _ => True := by
  cases e with
  | literal value => exact Steady.pure trivial
  | array bracket items => exact Steady.pure trivial
  | grouping inner => exact steady_evaluate hp hq ⟨h.shaped, h.clean, h.visits⟩ hm
  | unary operator right =>
    refine Steady.bind (steady_evaluate hp hq ⟨h.shaped, h.clean, h.visits⟩ hm) fun a m₁ h₁ _ => ?_
    exact Steady.lift fun _ => trivial
  | binary left operator right =>
    obtain ⟨hl, hr, hnames⟩ := Expr.Ready.split h.shaped.1 h.shaped.2 h.clean h.visits
    refine Steady.bind (steady_evaluate hp hq hl hm) fun a m₁ h₁ _ => ?_
    refine Steady.bind (steady_evaluate hp hq hr (hnames ▸ hm.onward h₁)) fun b m₂ h₂ _ => ?_
    exact Steady.lift fun _ => trivial
  | logical left operator right =>
    obtain ⟨hl, hr, hnames⟩ := Expr.Ready.split h.shaped.1 h.shaped.2 h.clean h.visits
    refine Steady.bind (steady_evaluate hp hq hl hm) fun a m₁ h₁ _ => ?_
    split
    · exact Steady.pure trivial
    · exact steady_evaluate hp hq hr (hnames ▸ hm.onward h₁)
  | ternary condition question yes no =>
    obtain ⟨hfirst, hno⟩ := List.append_subset.mp h.visits
    have hclean := h.clean.of_findings (no.walk around _ h.shaped.2.2).findings
    obtain ⟨hc, hyes, hnames⟩ := Expr.Ready.split h.shaped.1 h.shaped.2.1 hclean hfirst
    have hnames' : (yes.resolve (condition.resolve r)).names = r.names :=
      (yes.walk around _ h.shaped.2.1).names_eq.trans hnames
    refine Steady.bind (steady_evaluate hp hq hc hm) fun a m₁ h₁ _ => ?_
    split
    · exact steady_evaluate hp hq hyes (hnames ▸ hm.onward h₁)
    · exact steady_evaluate hp hq ⟨h.shaped.2.2, h.clean, hno⟩ (hnames' ▸ hm.onward h₁)
  | var id name => exact steady_lookUp id name
  | this id keyword => exact steady_lookUp id keyword
  | global name =>
    exact Steady.bind (P := fun _ _ => True) (Steady.look trivial) fun _ _ _ _ => Steady.orFail fun _ => trivial
  | assign id name value =>
    have hv : value.Ready known around r := ⟨h.shaped,
      h.clean.of_findings (Walk.refer around _ .assign id name).findings,
      (List.append_subset.mp h.visits).1⟩
    refine Steady.bind (steady_evaluate hp hq hv hm) fun a m₁ h₁ _ => ?_
    exact Steady.bind (steady_assign id name a) fun _ _ _ _ => Steady.pure trivial
  | call callee paren arguments =>
    have hc : callee.Ready known around r := ⟨h.shaped.1,
      h.clean.of_findings (Expr.allWalk arguments around _ h.shaped.2).findings, (List.append_subset.mp h.visits).1⟩
    have hnames := (callee.walk around r h.shaped.1).names_eq
    have hargs : Expr.AllReady known around (callee.resolve r) arguments :=
      ⟨h.shaped.2, h.clean, (List.append_subset.mp h.visits).2⟩
    refine Steady.bind (steady_evaluate hp hq hc hm) fun f m₁ h₁ _ => ?_
    have hm₁ := hm.onward h₁
    refine Steady.bind (steady_evaluateAll hp hq hargs (hnames ▸ hm₁)) fun values m₂ h₂ _ => ?_
    exact steady_invoke hp hq f values paren.line (hm₁.sound.onward h₂)
  | lambda routine => exact steady_makeFunction h hm
  | get object name =>
    refine Steady.bind (steady_evaluate hp hq ⟨h.shaped, h.clean, h.visits⟩ hm) fun a m₁ h₁ _ => ?_
    cases a with
    | object id => exact steady_property (hm.sound.onward h₁).heap id _ _
    | _ => exact Steady.fail _ _
  | set object name value =>
    -- The check meets the value first; since it leaves the names alone, the order does not matter.
    obtain ⟨hv, ho, hnames⟩ := Expr.Ready.split h.shaped.2 h.shaped.1 h.clean h.visits
    refine Steady.bind (steady_evaluate hp hq ho (hnames ▸ hm)) fun a m₁ h₁ _ => ?_
    cases a with
    | object id =>
      refine Steady.bind (steady_evaluate hp hq hv (hm.onward h₁)) fun b m₂ h₂ _ => ?_
      refine Steady.bind (P := fun _ _ => True) ?_ fun _ _ _ _ => Steady.pure trivial
      exact Steady.onHeap (Onward.of_heap _ (Heap.Enlarges.setField _ _ _ _)) trivial
    | _ => exact Steady.fail _ _
  | subscript id name index =>
    have hi : index.Ready known around ((r.checkRead name).refer id name) :=
      ⟨h.shaped, h.clean, fun v hv => h.visits (List.mem_cons_of_mem _ hv)⟩
    have hnames : ((r.checkRead name).refer id name).names = r.names := by simp
    refine Steady.bind (steady_lookUp id name) fun a m₁ h₁ _ => ?_
    refine Steady.bind (steady_evaluate hp hq hi (hnames ▸ hm.onward h₁)) fun b m₂ h₂ _ => ?_
    exact Steady.lift fun _ => trivial

/-! ### Statements -/

omit hp hq in
/-- What goes on from a machine that stands in its frames stands in them as well. -/
theorem Steady.stands {α : Type} {a b : Run α} {Q : α → Machine → Prop} (h : Steady (Onward known) m a b Q)
    (hm : m.Stands known around names) : Steady (Onward known) m a b fun _ m' => m'.Stands known around names :=
  h.imp fun _ _ ho _ => hm.onward ho

omit hp hq in
theorem steady_function {routine : Routine} (h : (Stmt.function routine).Ready known around r)
    (hm : m.Stands known around r.names) (rounds : Nat) :
    Steady (Onward known) m (Evaluation.execution p rounds (.function routine))
      (Evaluation.execution q rounds (.function routine))
      fun _ m' => m'.Stands known around (declareName routine.name.lexeme r.names) := by
  let added := m.heap.addClosure ⟨routine, m.frame, false⟩
  let heap := added.2.define m.frame routine.name.lexeme (.closure added.1)
  have hfirst : Heap.Grows m.heap added.2 := Heap.Grows.of_frames rfl
  have hgrows : Heap.Grows added.2 heap := Heap.Grows.define _ _ _ _
  have hmirrors : heap.Mirrors around m.frame (declareName routine.name.lexeme r.names) :=
    (hm.mirrors.grow hfirst).define _ _
  have hplaced : Closure.Placed known heap ⟨routine, m.frame, false⟩ :=
    ⟨around, .function, r.introduce routine.name, ⟨h.shaped, h.clean, h.visits⟩, by rwa [names_introduce]⟩
  have henlarges : Heap.Enlarges known m.heap heap :=
    ⟨hfirst.trans hgrows, fun hs => hs.addClosure hgrows rfl rfl hplaced⟩
  have ho : Onward known m { m with heap } := Onward.of_heap heap henlarges
  exact Steady.of_done (rfl : _ = Outcome.done () { m with heap }) ho ⟨hm.sound.onward ho, hmirrors⟩

theorem steady_superclassOf {name : Token} {superclass : Option Expr} {methods : List Routine}
    (h : (Stmt.classDecl name superclass methods).Ready known around r) (hm : m.Stands known around r.names) :
    Steady (Onward known) m (Evaluation.superclassOf p name superclass) (Evaluation.superclassOf q name superclass)
      fun _ _ => True := by
  cases superclass with
  | none => exact Steady.pure trivial
  | some parent =>
    obtain ⟨id, token, rfl⟩ := h.shaped.1
    have hne := h.classDecl.1.lexeme_ne
    let declared := { r with inClass := true }.introduce name
    have hnames : declared.names = declareName name.lexeme r.names := names_introduce _ name
    have hplaced : Task.Placed known m (.evaluate (.var id token)) := by
      refine Or.inr ⟨id, token, rfl, hm.sound, ⟨⟨.var, id, token⟩, declared.scopes, around⟩, ?_, rfl,
        ⟨name.lexeme, r.names.length⟩ :: around, ?_, fun x hx heq => ?_⟩
      · exact h.visits (List.mem_append_left _ (List.mem_singleton_self _))
      · show m.heap.Mirrors (⟨name.lexeme, r.names.length⟩ :: around) m.frame declared.names
        rw [hnames]
        have hmore := hm.mirrors.mono (Heap.Grows.refl _) (List.subset_cons_self ⟨name.lexeme, r.names.length⟩ around)
        exact hmore.declareName fun _ => Or.inr List.mem_cons_self
      · exact (List.mem_cons.mp hx).resolve_left fun hx => hne (by rw [hx] at heq; exact heq.symm)
    have hvalue : Steady (Onward known) m (Evaluation.evaluate p (.var id token))
        (Evaluation.evaluate q (.var id token)) fun _ _ => True := ⟨hq _ _ hplaced, hp.evaluate _ m hplaced⟩
    refine Steady.bind hvalue fun a m₁ _ _ => ?_
    cases a with
    | classValue id => exact Steady.pure trivial
    | _ => exact Steady.fail _ _

theorem steady_classDeclaration {name : Token} {superclass : Option Expr} {methods : List Routine}
    (h : (Stmt.classDecl name superclass methods).Ready known around r) (hm : m.Stands known around r.names) :
    Steady (Onward known) m (Evaluation.classDeclaration p name superclass methods)
      (Evaluation.classDeclaration q name superclass methods)
      fun _ m' => m'.Stands known around (declareName name.lexeme r.names) := by
  refine Steady.bind (steady_superclassOf hp hq h hm) fun parent m₁ h₁ _ => ?_
  have hm₁ := hm.onward h₁
  let added := m₁.heap.addClass ⟨name.lexeme, parent, Evaluation.methodTable m₁.frame methods⟩
  let heap := added.2.define m₁.frame name.lexeme (.classValue added.1)
  have hfirst : Heap.Grows m₁.heap added.2 := Heap.Grows.of_frames rfl
  have hgrows : Heap.Grows added.2 heap := Heap.Grows.define _ _ _ _
  have hmirrors : heap.Mirrors around m₁.frame (declareName name.lexeme r.names) :=
    (hm₁.mirrors.grow hfirst).define _ _
  have hmethods : ∀ entry ∈ (Evaluation.methodTable m₁.frame methods).entries,
      entry.2.PlacedAsMethod known heap := by
    intro entry hentry
    rcases Table.mem_putAll hentry with hmem | hmem
    · obtain ⟨routine, hroutine, rfl⟩ := List.mem_map.mp hmem
      obtain ⟨kind, r', hchecked, hnames⟩ := h.classDecl.2.2 routine hroutine
      exact ⟨around, kind, r', _, hchecked, hnames, hmirrors⟩
    · cases hmem
  have henlarges : Heap.Enlarges known m₁.heap heap :=
    ⟨hfirst.trans hgrows, fun hs => hs.addClass hgrows rfl rfl hmethods⟩
  have ho : Onward known m₁ { m₁ with heap } := Onward.of_heap heap henlarges
  exact Steady.of_done (rfl : _ = Outcome.done () { m₁ with heap }) ho ⟨hm₁.sound.onward ho, hmirrors⟩

omit hp hq in
/-- Going into a frame and coming back from it. -/
theorem Steady.inner {α : Type} {a b : Run α} {frame : FrameId} {Q : α → Machine → Prop}
    (h : Steady (Onward known) { m with frame } a b Q) :
    Steady (Onward known) m (Run.inFrame frame a) (Run.inFrame frame b) fun _ _ => True :=
  Steady.inFrame h (fun _ ho => ⟨rfl, ho.distances, ho.heap⟩) fun _ _ _ _ => trivial

theorem steady_block {body : List Stmt} (h : (Stmt.block body).Ready known around r)
    (hm : m.Stands known around r.names) :
    Steady (Onward known) m (Evaluation.block p body) (Evaluation.block q body) fun _ _ => True := by
  have hbody : Stmt.AllReady known around r.openScope body :=
    ⟨h.shaped, Clean.of_findings h.clean (Silent.closeScope _).findings, h.visits⟩
  let child : Frame := { enclosing := some m.frame }
  let inner := m.heap.addFrame child
  have henlarges : Heap.Enlarges known m.heap inner.2 := Heap.Enlarges.addFrame _ _
  have hinner : Machine.Stands known around ([] :: r.names) { m with heap := inner.2, frame := inner.1 } :=
    ⟨⟨henlarges.sound hm.sound.heap, hm.sound.recorded⟩, (hm.mirrors.grow henlarges.grows).push
      (Heap.frame?_addFrame_self m.heap child) (hm.sound.heap.addFrame_ne child)
      fun _ hname => (by cases hname)⟩
  refine Steady.bind (P := fun frame m' => frame = m.frame ∧ m' = m) (Steady.look ⟨rfl, rfl⟩) ?_
  rintro _ m₁ - ⟨rfl, rfl⟩
  refine Steady.bind (P := fun id m' => id = inner.1 ∧ m' = { m₁ with heap := inner.2 })
    (Steady.onHeap (Onward.of_heap _ henlarges) ⟨rfl, rfl⟩) ?_
  rintro _ _ - ⟨rfl, rfl⟩
  exact (steady_executeAll hp hq hbody hinner).inner

theorem steady_whileLoop {condition : Expr} {body : Stmt} (h : (Stmt.whileLoop condition body).Ready known around r)
    (hm : m.Stands known around r.names) (rounds : Nat) :
    Steady (Onward known) m (Evaluation.execution p rounds (.whileLoop condition body))
      (Evaluation.execution q rounds (.whileLoop condition body)) fun _ _ => True := by
  let looped := { condition.resolve r with loops := (condition.resolve r).loops + 1 }
  obtain ⟨hvc, hvb⟩ := List.append_subset.mp h.visits
  have hbody : body.Ready known around looped := ⟨h.shaped.2.2, h.clean, hvb⟩
  have hcondition : condition.Ready known around r :=
    ⟨h.shaped.1, hbody.clean.of_findings (body.walk around looped h.shaped.2.2).findings, hvc⟩
  have hnames : looped.names = r.names := (condition.walk around r h.shaped.1).names_eq
  refine Steady.repeatWhile (Machine.Stands known around r.names) (fun m₁ hm₁ => ?_) (fun m₁ hm₁ => ?_) rounds m hm
  · exact ((steady_evaluate hp hq hcondition hm₁).stands hm₁).map fun _ _ hm₂ => hm₂
  · exact (steady_execute hp hq hbody (hnames ▸ hm₁)).stands hm₁

theorem steady_varDecl {name : Token} {value : Expr} (h : (Stmt.varDecl name (some value)).Ready known around r)
    (hm : m.Stands known around r.names) (rounds : Nat) :
    Steady (Onward known) m (Evaluation.execution p rounds (.varDecl name (some value)))
      (Evaluation.execution q rounds (.varDecl name (some value)))
      fun _ m' => m'.Stands known around (declareName name.lexeme r.names) := by
  let own : Initializing := ⟨name.lexeme, r.scopes.length⟩
  have hvalue : value.Ready known (own :: around) (r.declare name) :=
    ⟨h.shaped, Clean.of_findings h.clean (Silent.define _ name).findings, h.visits⟩
  -- The name is declared, but bound only behind its initializer.
  have hdeclared : m.Stands known (own :: around) (r.declare name).names := by
    refine ⟨hm.sound, ?_⟩
    rw [names_declare]
    refine (hm.mirrors.mono (Heap.Grows.refl _) (List.subset_cons_self own around)).declareName fun _ => Or.inr ?_
    rw [length_names]
    exact List.mem_cons_self
  refine Steady.bind (steady_evaluate hp hq hvalue hdeclared) fun a m₁ h₁ _ => ?_
  have hm₁ := hdeclared.onward h₁
  rw [names_declare] at hm₁
  refine steady_defineInitialized ?_ a
  rw [length_declareName, length_names]
  exact hm₁

theorem steady_ifElse {condition : Expr} {yes : Stmt} {no : Option Stmt}
    (h : (Stmt.ifElse condition yes no).Ready known around r) (hm : m.Stands known around r.names) (rounds : Nat) :
    Steady (Onward known) m (Evaluation.execution p rounds (.ifElse condition yes no))
      (Evaluation.execution q rounds (.ifElse condition yes no)) fun _ _ => True := by
  have hparts : condition.Ready known around r ∧ yes.Ready known around (condition.resolve r) ∧
      ∀ other, no = some other → ∃ r', other.Ready known around r' ∧ r'.names = r.names := by
    cases no with
    | none =>
      obtain ⟨hvc, hvy⟩ := List.append_subset.mp h.visits
      have hyes : yes.Ready known around (condition.resolve r) := ⟨h.shaped.2.2, h.clean, hvy⟩
      exact ⟨⟨h.shaped.1, hyes.clean.of_findings (yes.walk around _ hyes.shaped).findings, hvc⟩, hyes,
        fun _ heq => (by cases heq)⟩
    | some other =>
      obtain ⟨hfirst, hvo⟩ := List.append_subset.mp h.visits
      obtain ⟨hvc, hvy⟩ := List.append_subset.mp hfirst
      have hother : other.Ready known around (yes.resolve (condition.resolve r)) := ⟨h.shaped.2.2.2, h.clean, hvo⟩
      have hyes : yes.Ready known around (condition.resolve r) :=
        ⟨h.shaped.2.1.2, hother.clean.of_findings (other.walk around _ hother.shaped).findings, hvy⟩
      have hnames := (yes.walk around (condition.resolve r) hyes.shaped).names_eq
      rw [h.shaped.2.1.1] at hnames
      refine ⟨⟨h.shaped.1, hyes.clean.of_findings (yes.walk around _ hyes.shaped).findings, hvc⟩, hyes, ?_⟩
      intro _ heq
      cases heq
      exact ⟨_, hother, hnames.trans (condition.walk around r h.shaped.1).names_eq⟩
  obtain ⟨hcondition, hyes, hno⟩ := hparts
  have hnames := (condition.walk around r hcondition.shaped).names_eq
  refine Steady.bind (steady_evaluate hp hq hcondition hm) fun c m₁ h₁ _ => ?_
  have hm₁ := hm.onward h₁
  split
  · exact (steady_execute hp hq hyes (hnames ▸ hm₁)).imp fun _ _ _ _ => trivial
  · split
    · next other =>
      obtain ⟨r', hother, hnames'⟩ := hno other rfl
      exact (steady_execute hp hq hother (hnames' ▸ hm₁)).imp fun _ _ _ _ => trivial
    · exact Steady.pure trivial

theorem steady_execution {s : Stmt} (h : s.Ready known around r) (hm : m.Stands known around r.names) (rounds : Nat) :
    Steady (Onward known) m (Evaluation.execution p rounds s) (Evaluation.execution q rounds s)
      fun _ m' => m'.Stands known around (declareIn r.names s.declared?) := by
  cases s with
  | expression value =>
    have hvalue := steady_evaluate hp hq ⟨h.shaped, h.clean, h.visits⟩ hm
    exact (hvalue.stands hm).discard fun _ _ hm' => hm'
  | print keyword values =>
    refine Steady.stands (Q := fun _ _ => True) ?_ hm
    refine Steady.bind (steady_evaluateAll hp hq ⟨h.shaped, h.clean, h.visits⟩ hm) fun values m₁ _ _ => ?_
    refine Steady.bind (P := fun _ _ => True) (Steady.look trivial) fun text m₂ _ _ => ?_
    exact steady_printLine text _
  | varDecl name value =>
    cases value with
    | none => exact steady_define hm name.lexeme .nil
    | some value => exact steady_varDecl hp hq h hm rounds
  | block body => exact (steady_block hp hq h hm).stands hm
  | ifElse condition yes no => exact (steady_ifElse hp hq h hm rounds).stands hm
  | whileLoop condition body => exact (steady_whileLoop hp hq h hm rounds).stands hm
  | function routine => exact steady_function h hm rounds
  | breakLoop keyword => exact Steady.stop _
  | returnValue keyword value =>
    cases value with
    | none => exact Steady.stop _
    | some value =>
      have hnames : (if r.enclosing = .none then r.refuse keyword .returnOutsideFunction else r).names = r.names := by
        split <;> rfl
      refine Steady.bind (steady_evaluate hp hq ⟨h.shaped, h.clean, h.visits⟩ (hnames ▸ hm)) fun a m₁ _ _ => ?_
      exact Steady.stop _
  | classDecl name superclass methods => exact steady_classDeclaration hp hq h hm
  | useLibrary keyword path => exact (steady_useLibrary path).stands hm

/-! ### Calls -/

theorem steady_apply {f : Closure} (hf : f.Placed known m.heap) (hm : m.Sound known) {arguments : List Value}
    (harity : f.arity = arguments.length) :
    Steady (Onward known) m (Evaluation.apply p f arguments) (Evaluation.apply q f arguments) fun _ _ => True := by
  obtain ⟨⟨name, params, body⟩, frame, isInitializer⟩ := f
  obtain ⟨around, kind, r, hchecked, hmirrors⟩ := hf
  have hbody : Stmt.AllReady known around (r.enter kind params) body :=
    ⟨hchecked.shaped, Clean.of_findings hchecked.clean (Silent.closeScope _).findings, hchecked.visits⟩
  let bindings := Table.putAll {} ((params.map (·.lexeme)).zip arguments)
  let inner := m.heap.addFrame ⟨bindings, some frame⟩
  have henlarges : Heap.Enlarges known m.heap inner.2 := Heap.Enlarges.addFrame _ _
  have hinner : Machine.Stands known around (r.enter kind params).names { m with heap := inner.2, frame := inner.1 } := by
    obtain ⟨scope, hscope, hparams⟩ := exists_foldl_declareName params [] r.names
    refine ⟨⟨henlarges.sound hm.heap, hm.recorded⟩, ?_⟩
    rw [Resolver.enter, names_foldl_introduce]
    show inner.2.Mirrors around inner.1 (params.foldl _ ([] :: r.names))
    rw [hscope]
    refine (hmirrors.grow henlarges.grows).push (Heap.frame?_addFrame_self m.heap ⟨bindings, some frame⟩)
      (hm.heap.addFrame_ne _) fun x hx => Table.isSome_get?_putAll (Or.inl ?_)
    -- There is an argument for each parameter.
    rw [List.map_fst_zip (by rw [List.length_map]; exact Nat.le_of_eq harity)]
    exact (hparams x hx).resolve_left (by simp)
  refine Steady.bind (P := fun id m' => id = inner.1 ∧ m' = { m with heap := inner.2 })
    (Steady.onHeap (Onward.of_heap _ henlarges) ⟨rfl, rfl⟩) ?_
  rintro _ _ - ⟨rfl, rfl⟩
  exact (steady_executeAll hp hq hbody hinner).inner.result _

omit hp hq in
/-- One more call and back. -/
theorem Steady.called {α : Type} {a b : Run α} {line : Nat} {Q : α → Machine → Prop}
    (h : Steady (Onward known) { m with depth := m.depth + 1 } a b Q) :
    Steady (Onward known) m (Run.nested line a) (Run.nested line b) fun _ _ => True :=
  Steady.nested h (fun _ ho => ⟨ho.frame, ho.distances, ho.heap⟩) fun _ _ _ _ => trivial

omit hp hq in
/-- The last steps of making an instance. -/
theorem steady_copyLineage (hm : m.heap.Sound known) (id : InstanceId) (classId : ClassId) :
    Steady (Onward known) m (Run.onHeap (fun h => ((), h.copyLineage id classId)) >>= fun _ => pure (Value.object id))
      (Run.onHeap (fun h => ((), h.copyLineage id classId)) >>= fun _ => pure (Value.object id)) fun _ _ => True :=
  Steady.bind (P := fun _ _ => True)
    (Steady.onHeap (Onward.of_heap _ (Heap.Enlarges.copyLineage hm id classId)) trivial)
    fun _ _ _ _ => Steady.pure trivial

theorem steady_instantiate {classId : ClassId} {arguments : List Value} (line : Nat) (hm : m.Sound known)
    (harity : m.heap.classArity classId initializerName = arguments.length) :
    Steady (Onward known) m (Evaluation.instantiate p classId arguments line)
      (Evaluation.instantiate q classId arguments line) fun _ _ => True := by
  have hadded : Heap.Enlarges known m.heap (m.heap.addInstance { classId }).2 := Heap.Enlarges.addInstance _ _
  refine Steady.bind (P := fun _ m' => m' = { m with heap := (m.heap.addInstance { classId }).2 })
    (Steady.onHeap (Onward.of_heap _ hadded) rfl) ?_
  rintro id m₁ h₁ rfl
  have hm₁ := hm.onward h₁
  have hclasses : (m.heap.addInstance { classId }).2.classes = m.heap.classes := rfl
  refine Steady.bind (P := fun x m' => x = m.heap.findMethod? classId initializerName ∧ m'.Sound known)
    (Steady.look ⟨Heap.findMethod?_congr hclasses _ _, hm₁⟩) ?_
  rintro x m₂ h₂ ⟨hx, hm₂⟩
  cases x with
  | none => exact steady_copyLineage hm₂.heap id classId
  | some method =>
    have hcount : method.arity = arguments.length := by
      rw [← harity, Heap.classArity, ← hx]
      rfl
    have hmethod : method.PlacedAsMethod known m₂.heap :=
      (hm.heap.findMethod? hx.symm).grow ((hadded.trans h₂.heap).grows)
    have hbind : Heap.Enlarges known m₂.heap (m₂.heap.bind method id).2 := Heap.Enlarges.bind _ _ _
    refine Steady.bind (P := fun f m' => f.Placed known m'.heap ∧ f.arity = arguments.length ∧ m'.Sound known)
      (Steady.onHeap (Onward.of_heap _ hbind) ⟨hm₂.heap.bind hmethod id, hcount, hm₂.onward (Onward.of_heap _ hbind)⟩) ?_
    rintro f m₃ - ⟨hf, hcount, hm₃⟩
    have hcall := steady_apply hp hq (m := { m₃ with depth := m₃.depth + 1 }) hf ⟨hm₃.heap, hm₃.recorded⟩ hcount
    refine Steady.bind (P := fun _ _ => True) (hcall.called.discard fun _ _ _ => trivial) fun _ m₄ h₄ _ => ?_
    exact steady_copyLineage (hm₃.onward h₄).heap id classId

theorem steady_invocation (callee : Value) (arguments : List Value) (line : Nat) (hm : m.Sound known) :
    Steady (Onward known) m (Evaluation.invocation p callee arguments line)
      (Evaluation.invocation q callee arguments line) fun _ _ => True := by
  cases callee with
  | native f =>
    unfold Evaluation.invocation
    dsimp only
    split
    · exact steady_callPrimitive f.primitive arguments line
    · exact Steady.fail _ _
  | closure id =>
    refine Steady.bind (P := fun x m' => x = m.heap.closure? id ∧ m' = m) (Steady.look ⟨rfl, rfl⟩) ?_
    rintro x m₁ - ⟨hx, rfl⟩
    cases x with
    | none => exact Steady.fail _ _
    | some f =>
      dsimp only
      split
      · next harity =>
        have hplaced := hm.heap.closures id f hx.symm
        have hcall := steady_apply hp hq (m := { m₁ with depth := m₁.depth + 1 }) hplaced ⟨hm.heap, hm.recorded⟩ harity
        exact hcall.called
      · exact Steady.fail _ _
  | classValue id =>
    refine Steady.bind (P := fun x m' => x = m.heap.classArity id initializerName ∧ m' = m)
      (Steady.look ⟨rfl, rfl⟩) ?_
    rintro _ m₁ - ⟨rfl, rfl⟩
    split
    · next harity => exact steady_instantiate hp hq line hm harity
    · exact Steady.fail _ _
  | _ => exact Steady.fail _ _

end Tasks

/-! ### Performing -/

/-- A task that stands in its frames asks only for tasks that do. -/
theorem performOver_eq_of_placed {p q : Performer} (hp : p.Keeps known)
    (hq : ∀ t n, Task.Placed known n t → q t n = p t n) (rounds : Nat) {task : Task} (h : task.Placed known m) :
    Evaluation.performOver q rounds task m = Evaluation.performOver p rounds task m := by
  cases task with
  | evaluate e =>
    rcases h with ⟨around, r, he, hm⟩ | ⟨id, token, rfl, -, -⟩
    · exact (steady_evaluation hp hq he hm).same
    · rfl
  | execute s =>
    obtain ⟨around, r, hs, hm⟩ := h
    exact (steady_execution hp hq hs hm rounds).same
  | invoke callee arguments line => exact (steady_invocation hp hq callee arguments line h).same

theorem Performer.Keeps.performOver {p : Performer} (hp : p.Keeps known) (rounds : Nat) :
    (Evaluation.performOver p rounds).Keeps known := by
  have hq : ∀ t n, Task.Placed known n t → p t n = p t n := fun _ _ _ => rfl
  refine ⟨fun e m h => ?_, fun s around r m hs hm => ?_, fun callee arguments line m hm => ?_⟩
  · rcases h with ⟨around, r, he, hm⟩ | ⟨id, token, rfl, -, -⟩
    · exact (steady_evaluation hp hq he hm).within
    · exact (steady_lookUp id token).within
  · exact (steady_execution hp hq hs hm rounds).within
  · exact (steady_invocation hp hq callee arguments line hm).within

theorem perform_keeps (known : List Visit) : ∀ steps, (perform steps).Keeps known
  | 0 => ⟨fun _ m _ => Lasting.refl m, fun _ _ _ m _ _ => Lasting.refl m, fun _ _ _ m _ => Lasting.refl m⟩
  | steps + 1 => (perform_keeps known steps).performOver steps

/-- All tasks that begin in the course of one that stands in its frames stand in theirs. -/
theorem Begins.placed {steps : Nat} {task task' : Task} (hb : Begins steps task m task' m')
    (h : task.Placed known m) : task'.Placed known m' :=
  of_begins (fun t n => Task.Placed known n t)
    (fun steps _ _ hgood _ hq => performOver_eq_of_placed (perform_keeps known steps) hq steps hgood) hb h

/-- The reference that an expression is, apart from its parts. -/
def Expr.reference? : Expr → Option Reference
  | .var id name => some ⟨.var, id, name⟩
  | .this id keyword => some ⟨.this, id, keyword⟩
  | .subscript id name _ => some ⟨.index, id, name⟩
  | .assign id name _ => some ⟨.assign, id, name⟩
  | _ => none

/-- A reference that is evaluated in its frames was visited in scopes that they mirror. -/
theorem Task.Placed.refers {e : Expr} {reference : Reference} (h : Task.Placed known m (.evaluate e))
    (he : e.reference? = some reference) : m.Sound known ∧ m.Refers known reference := by
  rcases h with ⟨around, r, hready, hm⟩ | ⟨id, token, rfl, hs, hrefers⟩
  · refine ⟨hm.sound, ?_⟩
    have hmirrored : ∀ (reference : Reference) (scopes : List Scope), scopes.map (·.map (·.token.lexeme)) = r.names →
        Visit.Mirrored ⟨reference, scopes, around⟩ m := fun _ _ hnames =>
      ⟨around, hnames ▸ hm.mirrors, fun x hx _ => hx⟩
    cases e with
    | var id name =>
      cases he
      exact ⟨_, hready.visits (List.mem_singleton_self _), rfl, hmirrored _ _ rfl⟩
    | this id keyword =>
      cases he
      exact ⟨_, hready.visits (List.mem_singleton_self _), rfl, hmirrored _ _ rfl⟩
    | subscript id name index =>
      cases he
      exact ⟨_, hready.visits List.mem_cons_self, rfl, hmirrored _ _ rfl⟩
    | assign id name value =>
      cases he
      exact ⟨_, hready.visits (List.mem_append_right _ (List.mem_singleton_self _)), rfl,
        hmirrored _ _ (value.walk around r hready.shaped).names_eq⟩
    | _ => cases he
  · cases he
    exact ⟨hs, hrefers⟩

/-- The value of an assignment leaves the machine in the frames of the assignment. -/
theorem Task.Placed.assigned {id : NodeId} {name : Token} {value : Expr} {steps : Nat} {a : Value}
    (h : Task.Placed known m (.evaluate (.assign id name value)))
    (hrun : perform steps (.evaluate value) m = .done a m') : Onward known m m' := by
  rcases h with ⟨around, r, hready, hm⟩ | ⟨_, _, heq, -, -⟩
  · have hvalue : value.Ready known around r := ⟨hready.shaped,
      hready.clean.of_findings (Walk.refer around _ .assign id name).findings,
      (List.append_subset.mp hready.visits).1⟩
    have hwithin := (perform_keeps known steps).evaluate value m (Or.inl ⟨around, r, hvalue, hm⟩)
    rw [hrun] at hwithin
    exact hwithin.1
  · cases heq

/-- A program on the outermost level is always in the outermost frame between two statements. -/
theorem Machine.next?_onward {steps : Nat} {s : Stmt} (hs : s.Ready known around r)
    (hm : m.Stands known around r.names) (hnext : m.next? steps s = some m') : Onward known m m' := by
  have hkeeps := (perform_keeps known steps).execute s around r m hs hm
  unfold Machine.next? at hnext
  split at hnext
  · next heq =>
    rw [heq] at hkeeps
    cases hnext
    exact hkeeps.1
  · cases hnext
  · cases hnext
  · next heq =>
    rw [heq] at hkeeps
    cases hnext
    exact hkeeps

theorem declareIn_nil (token? : Option Token) : declareIn [] token? = [] := by cases token? <;> rfl

/-- However a program ends, the machine is in the outermost frame of a sound heap. -/
theorem Machine.interpret_onward {steps : Nat} {program : List Stmt} (hready : Stmt.AllReady known [] r program)
    (hr : r.names = []) (hm : m.Stands known [] []) : Onward known m (m.interpret steps program).2 := by
  induction program generalizing r m with
  | nil =>
    unfold interpret
    rcases m.sink.flush with ⟨sink, _ | reason⟩ <;> exact Onward.of_eq rfl rfl rfl
  | cons s rest ih =>
    obtain ⟨hs, hrest, hnames⟩ := hready.split
    have hkeeps := (perform_keeps known steps).execute s [] r m hs (hr ▸ hm)
    have hgo : ∀ m', Onward known m m' → Onward known m (m'.interpret steps rest).2 := fun m' ho =>
      Lasting.trans ho (ih hrest (by rw [hnames, hr, declareIn_nil]) (hm.onward ho))
    unfold interpret
    cases hrun : perform steps (.execute s) m with
    | done u m' =>
      rw [hrun] at hkeeps
      exact hgo m' hkeeps.1
    | stopped signal m' =>
      rw [hrun] at hkeeps
      cases signal with
      | failed e => exact ⟨hm.mirrors.symm, hkeeps.distances, hkeeps.heap⟩
      | suspended => exact hkeeps
      | returned value => exact hgo m' hkeeps
      | broke => exact hgo m' hkeeps

/-- All tasks that begin in the course of a program stand in their frames. -/
theorem Machine.Reaches.placed {steps : Nat} {program : List Stmt} {task : Task}
    (hreach : m.Reaches steps program task m') (hready : Stmt.AllReady known [] r program) (hr : r.names = [])
    (hm : m.Stands known [] []) : task.Placed known m' := by
  induction hreach generalizing r with
  | here hb => exact hb.placed ⟨[], r, hready.split.1, hr ▸ hm⟩
  | later hnext _ ih =>
    obtain ⟨hs, hrest, hnames⟩ := hready.split
    exact ih hrest (by rw [hnames, hr, declareIn_nil]) (hm.onward (Machine.next?_onward hs (hr ▸ hm) hnext))

end Treewalk
