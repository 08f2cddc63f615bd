import Treewalk.Proofs.Heap.Cells
import Treewalk.Proofs.Machine.Activities

/-!
Programs that keep to a region of the heap. If the frames of a machine lie in a region that is closed, so do all values
that the machine comes by: those that it looks up, hands to functions and gets back from them, and those that it puts
anywhere. What it changes lies in the region too, so that every relation that such changes keep holds between any two
heaps of a run.
-/

namespace Treewalk

/-- The region holds the frames of the machine, and all that is mentioned in it; and the heap is related to the one at the
base. -/
structure Machine.Held (Q : Heap → Cell → Prop) (K : Heap → Heap → Prop) (base : Heap) (m : Machine) : Prop extends
    m.heap.Guarded Q K base where
  frame : Q m.heap (.frame m.frame)
  outermost : Q m.heap (.frame globalFrame)

/-- The second machine is held like the first one, and their heaps are related. -/
structure Machine.Secures (Q : Heap → Cell → Prop) (K : Heap → Heap → Prop) (base : Heap) (m m' : Machine) : Prop where
  before : m.Held Q K base
  kept : K m.heap m'.heap
  after : m'.Held Q K base

/-- The signal carries nothing out of the region. -/
structure Machine.Releases (Q : Heap → Cell → Prop) (K : Heap → Heap → Prop) (base : Heap) (m : Machine) (s : Signal)
    (m' : Machine) : Prop where
  secures : m.Secures Q K base m'
  returned : ∀ value, s = .returned value → value.Within (Q m'.heap)

/-- From the given machine on both runs come to the same and keep to the region, with results as said. -/
abbrev Entrusted (Q : Heap → Cell → Prop) (K : Heap → Heap → Prop) (base : Heap) {α : Type} (m : Machine) (r r' : Run α)
    (P : α → Machine → Prop) : Prop :=
  Traced (Machine.Secures Q K base) (Machine.Releases Q K base) m r r' P

namespace Task

/-- The task mentions cells of the region only. -/
def Within (Q : Cell → Prop) : Task → Prop
  | .invoke callee arguments _ => callee.Within Q ∧ ∀ v ∈ arguments, v.Within Q
  | _ => True

/-- The result of the task mentions cells of the region only. -/
def Yields (Q : Cell → Prop) : (task : Task) → task.Result → Prop
  | .evaluate _, value => Value.Within Q value
  | .execute _, _ => True
  | .invoke _ _ _, value => Value.Within Q value

end Task

/-- The task begins on a held machine, and mentions cells of the region only. -/
structure Task.Held (Q : Heap → Cell → Prop) (K : Heap → Heap → Prop) (base : Heap) (t : Task) (m : Machine) : Prop where
  machine : m.Held Q K base
  within : t.Within (Q m.heap)

/-! ### Values that come from values -/

section Values
variable {Q : Cell → Prop} {value : Value}

theorem Operator.within_unary {operator : Token} {right : Value} (h : unary operator right = .ok value) :
    value.Within Q := by
  unfold unary at h
  split at h
  · split at h <;> cases h
    exact Value.within_number _
  · cases h
    exact Value.within_bool _
  · cases h

theorem Operator.within_numeric {f : Float → Float → Value} {left right : Value} (hf : ∀ a b, (f a b).Within Q)
    (h : numeric f left right = .ok value) : value.Within Q := by
  unfold numeric at h
  split at h <;> cases h
  exact hf _ _

theorem Operator.within_binary {operator : Token} {left right : Value} (h : binary operator left right = .ok value) :
    value.Within Q := by
  have hnumber : ∀ f : Float → Float → Float, numeric (fun a b => .number (f a b)) left right = .ok value →
      value.Within Q := fun f => within_numeric fun a b => Value.within_number (f a b)
  have hbool : ∀ f : Float → Float → Bool, numeric (fun a b => .bool (f a b)) left right = .ok value →
      value.Within Q := fun f => within_numeric fun a b => Value.within_bool (f a b)
  unfold binary at h
  split at h
  · unfold add at h
    split at h <;> cases h
    · exact Value.within_number _
    · exact Value.within_string _
    · exact Value.within_string _
  · exact hnumber _ h
  · exact hnumber _ h
  · exact hnumber _ h
  · exact hbool _ h
  · exact hbool _ h
  · exact hbool _ h
  · exact hbool _ h
  · cases h
    exact Value.within_bool _
  · cases h
    exact Value.within_bool _
  · cases h

theorem Operator.within_item {name : String} {target index : Value} (htarget : target.Within Q)
    (h : item name target index = .ok value) : value.Within Q := by
  unfold item at h
  repeat' split at h
  all_goals cases h
  next items _ _ _ _ hfound =>
  split at hfound
  · exact htarget.item (List.mem_of_getElem? hfound)
  · cases hfound

variable {arguments : List Value}

theorem Native.within_extremum {pick : Float → Float → Float} {function : String}
    (h : extremum pick function arguments = .ok value) : value.Within Q := by
  simp only [extremum, bind, Except.bind] at h
  split at h
  · cases h
  · split at h <;> cases h
    exact Value.within_number _

theorem Native.within_len (h : len arguments = .ok value) : value.Within Q := by
  unfold len at h
  split at h <;> cases h
  · exact Value.within_number _
  · exact Value.within_number _

theorem Native.within_substr (h : substr arguments = .ok value) : value.Within Q := by
  simp only [substr, bind, Except.bind] at h
  repeat' split at h
  all_goals cases h
  exact Value.within_string _

theorem Native.within_concat (h : concat arguments = .ok value) : value.Within Q := by
  simp only [concat, bind, Except.bind] at h
  repeat' split at h
  all_goals cases h
  exact Value.within_string _

theorem Native.within_split (h : Native.split arguments = .ok value) : value.Within Q := by
  simp only [Native.split, bind, Except.bind] at h
  repeat' split at h
  all_goals cases h
  refine Value.within_array fun v hv => ?_
  obtain ⟨piece, -, rfl⟩ := List.mem_map.mp hv
  exact Value.within_string piece

theorem Native.within_replace (h : replace arguments = .ok value) : value.Within Q := by
  simp only [replace, bind, Except.bind] at h
  repeat' split at h
  all_goals cases h
  exact Value.within_string _

end Values

/-! ### Elementary runs -/

section
variable {Q : Heap → Cell → Prop} {K : Heap → Heap → Prop} {base : Heap} [Heap.Custody Q K base] {m m' : Machine}

instance : Followed (Machine.Secures Q K base) (Machine.Releases Q K base) where
  trans h h' := ⟨h.before, Heap.Custody.trans Q base h.kept h'.kept, h'.after⟩
  carry h h' :=
    ⟨⟨h.before, Heap.Custody.trans Q base h.kept h'.secures.kept, h'.secures.after⟩, h'.returned⟩
  stop hm hs := ⟨hm, fun value heq => absurd heq (hs value)⟩
  broke h := h.secures
  returned h := h.secures

namespace Machine

theorem Secures.mono (h : m.Secures Q K base m') {p : Cell} (hp : Q m.heap p) : Q m'.heap p := Heap.Custody.mono base h.kept hp

theorem Secures.within (h : m.Secures Q K base m') {value : Value} (hv : value.Within (Q m.heap)) :
    value.Within (Q m'.heap) := hv.imp fun _ => h.mono

namespace Held

variable (hm : m.Held Q K base)
include hm

theorem self : m.Secures Q K base m := ⟨hm, Heap.Custody.refl Q base m.heap, hm⟩

theorem onHeap {heap : Heap} (h : m.heap.Secures Q K base heap) : m.Secures Q K base { m with heap } :=
  ⟨hm, h.kept, h.after, h.mono hm.frame, h.mono hm.outermost⟩

omit [Heap.Custody Q K base] in
theorem of_eq (hheap : m'.heap = m.heap) (hframe : m'.frame = m.frame) : m'.Held Q K base := by
  obtain ⟨hg, hf, ho⟩ := hm
  refine ⟨?_, ?_, ?_⟩ <;> rw [hheap]
  · exact hg
  · rw [hframe]
    exact hf
  · exact ho

/-- Changes of the channels and of the notices leave heap and frame alone. -/
theorem aside (hheap : m'.heap = m.heap) (hframe : m'.frame = m.frame) : m.Secures Q K base m' :=
  ⟨hm, by rw [hheap]; exact Heap.Custody.refl Q base m.heap, hm.of_eq hheap hframe⟩

omit [Heap.Custody Q K base] in
theorem target? {id : NodeId} {name : String} {frame : FrameId} (h : m.target? id name = some frame) :
    Q m.heap (.frame frame) := by
  unfold Machine.target? at h
  split at h
  · exact hm.closed.ancestor? hm.frame h
  · exact hm.closed.owner? hm.outermost h

theorem lookUp (id : NodeId) (name : Token) : Entrusted Q K base m (Run.lookUp id name) (Run.lookUp id name)
    fun value m' => value.Within (Q m'.heap) := by
  refine ⟨rfl, ?_⟩
  unfold Run.lookUp
  cases hvalue : m.lookUp? id name.lexeme with
  | none => exact ⟨hm.self, nofun⟩
  | some value =>
    obtain ⟨frame, hframe, hown⟩ := Option.bind_eq_some_iff.mp hvalue
    exact ⟨hm.self, hm.closed.getOwn? (hm.target? hframe) hown⟩

theorem defineIn {frame : FrameId} {value : Value} (name : String) (hframe : Q m.heap (.frame frame))
    (hv : value.Within (Q m.heap)) : m.Secures Q K base (m.define frame name value) :=
  hm.onHeap (.define hm.toGuarded hframe hv)

theorem assign (id : NodeId) (name : Token) {value : Value} (hv : value.Within (Q m.heap)) :
    Entrusted Q K base m (Run.assign id name value) (Run.assign id name value) fun _ _ => True := by
  refine ⟨rfl, ?_⟩
  unfold Run.assign
  cases hframe : m.target? id name.lexeme with
  | none => exact ⟨hm.self, nofun⟩
  | some frame => exact ⟨hm.defineIn _ (hm.target? hframe) hv, trivial⟩

theorem define (name : String) {value : Value} (hv : value.Within (Q m.heap)) :
    Entrusted Q K base m (Run.define name value) (Run.define name value) fun _ _ => True :=
  .change (hm.defineIn name hm.frame hv) trivial

theorem makeFunction (routine : Routine) : Entrusted Q K base m (Run.makeFunction routine) (Run.makeFunction routine)
    fun value m' => value.Within (Q m'.heap) := by
  obtain ⟨hadd, hid⟩ := Heap.Secures.addClosure hm.toGuarded (f := ⟨routine, m.frame, false⟩)
    (by rintro _ rfl; exact hm.frame)
  exact .of_done rfl rfl (hm.onHeap hadd) (Value.within_closure hid)

theorem property {id : InstanceId} (hid : Q m.heap (.object id)) (name : String) (line : Nat) :
    Entrusted Q K base m (Run.property id name line) (Run.property id name line)
      fun value m' => value.Within (Q m'.heap) := by
  refine Traced.bind (P := fun x m' => m' = m ∧ x = m.heap.property? id name) (.look hm.self ⟨rfl, rfl⟩) ?_
  rintro x m₁ - ⟨rfl, hx⟩
  match x, hx with
  | some (.field value), hx => exact .pure hm.self (hm.closed.property? hid hx.symm)
  | some (.method method), hx =>
    obtain ⟨hbind, hvalue⟩ := Heap.Secures.bindValue hm.toGuarded (hm.closed.property? hid hx.symm) hid
    exact .onHeap (hm.onHeap hbind) hvalue
  | none, _ => exact .fail hm.self _ _

theorem printLine (text : String) (line : Nat) : Entrusted Q K base m (Run.printLine text line) (Run.printLine text line)
    fun _ _ => True := by
  refine ⟨rfl, ?_⟩
  unfold Run.printLine
  rcases m.sink.writeLine text with ⟨sink, _ | reason⟩
  · exact ⟨hm.aside rfl rfl, trivial⟩
  · exact ⟨hm.aside rfl rfl, nofun⟩

theorem readWord (line : Nat) : Entrusted Q K base m (Run.readWord line) (Run.readWord line)
    fun value m' => value.Within (Q m'.heap) := by
  refine ⟨rfl, ?_⟩
  unfold Run.readWord
  rcases m.input.takeWord with ⟨reason | (_ | text), input⟩
  · exact ⟨hm.aside rfl rfl, nofun⟩
  · exact ⟨hm.aside rfl rfl, Value.within_nil⟩
  · exact ⟨hm.aside rfl rfl, Value.within_string text⟩

theorem ofNative {result : Except NativeFault Value} (line : Nat)
    (h : ∀ value, result = .ok value → value.Within (Q m.heap)) :
    Entrusted Q K base m (Run.ofNative result line) (Run.ofNative result line) fun value m' => value.Within (Q m'.heap) := by
  cases result with
  | ok value => exact .pure hm.self (h value rfl)
  | error fault => exact .fail hm.self _ _

theorem callHost (index : Nat) (arguments : List Value) (line : Nat) :
    Entrusted Q K base m (Run.callHost index arguments line) (Run.callHost index arguments line)
      fun value m' => value.Within (Q m'.heap) := by
  refine ⟨rfl, ?_⟩
  unfold Run.callHost
  cases m.host[index]? with
  | none => exact ⟨hm.self, Value.within_nil⟩
  | some f =>
    cases hf : f arguments with
    | ok literal => simp only [hf]; exact ⟨hm.self, Value.within_ofLiteral literal⟩
    | error message => simp only [hf]; exact ⟨hm.self, nofun⟩

theorem callPrimitive (primitive : Primitive) (arguments : List Value) (line : Nat) :
    Entrusted Q K base m (Run.callPrimitive primitive arguments line) (Run.callPrimitive primitive arguments line)
      fun value m' => value.Within (Q m'.heap) := by
  cases primitive with
  | clock => exact .of_done rfl rfl (hm.aside rfl rfl) (Value.within_number _)
  | max => exact hm.ofNative line fun _ => Native.within_extremum
  | min => exact hm.ofNative line fun _ => Native.within_extremum
  | len => exact hm.ofNative line fun _ => Native.within_len
  | substr => exact hm.ofNative line fun _ => Native.within_substr
  | concat => exact hm.ofNative line fun _ => Native.within_concat
  | split => exact hm.ofNative line fun _ => Native.within_split
  | replace => exact hm.ofNative line fun _ => Native.within_replace
  | readWord => exact hm.readWord line
  | host index => exact hm.callHost index arguments line

theorem useLibrary (path : Token) :
    Entrusted Q K base m (Run.useLibrary path) (Run.useLibrary path) fun _ _ => True := by
  refine .change ?_ trivial
  dsimp only
  split
  · exact hm.defineIn _ hm.outermost (Value.within_native _)
  · exact hm.aside rfl rfl

end Held

end Machine

/-! ### Answers -/

/-- On held machines both performers do tasks in the same way and keep to the region. -/
def Performer.Agree (Q : Heap → Cell → Prop) (K : Heap → Heap → Prop) (base : Heap) (p q : Performer) : Prop :=
  ∀ t n, t.Held Q K base n → Entrusted Q K base n (p t) (q t) fun a n' => t.Yields (Q n'.heap) a

variable {p q : Performer} (hpq : p.Agree Q K base q) (hm : m.Held Q K base)
include hpq hm

omit [Heap.Custody Q K base] in
theorem entrusted_evaluate (e : Expr) : Entrusted Q K base m (Evaluation.evaluate p e) (Evaluation.evaluate q e)
    fun value m' => value.Within (Q m'.heap) := hpq (.evaluate e) m ⟨hm, trivial⟩

omit [Heap.Custody Q K base] in
theorem entrusted_execute (s : Stmt) : Entrusted Q K base m (Evaluation.execute p s) (Evaluation.execute q s)
    fun _ _ => True := hpq (.execute s) m ⟨hm, trivial⟩

theorem entrusted_evaluateAll (es : List Expr) :
    Entrusted Q K base m (Evaluation.evaluateAll p es) (Evaluation.evaluateAll q es)
      fun values m' => ∀ v ∈ values, v.Within (Q m'.heap) := by
  induction es generalizing m with
  | nil => exact .pure hm.self nofun
  | cons e es ih =>
    refine .bind (entrusted_evaluate hpq hm e) fun value m₁ h₁ hvalue => ?_
    refine .bind (ih h₁.after) fun values m₂ h₂ hvalues => .pure h₂.after.self fun v hv => ?_
    rcases List.mem_cons.mp hv with rfl | hv
    · exact h₂.within hvalue
    · exact hvalues v hv

theorem entrusted_executeAll (body : List Stmt) :
    Entrusted Q K base m (Evaluation.executeAll p body) (Evaluation.executeAll q body) fun _ _ => True := by
  induction body generalizing m with
  | nil => exact .pure hm.self trivial
  | cons s rest ih =>
    rw [Evaluation.executeAll_cons, Evaluation.executeAll_cons]
    exact .bind (entrusted_execute hpq hm s) fun _ m₁ h₁ _ => ih h₁.after

theorem entrusted_evaluation (e : Expr) : Entrusted Q K base m (Evaluation.evaluation p e) (Evaluation.evaluation q e)
    fun value m' => value.Within (Q m'.heap) := by
  have hpart := fun (e : Expr) {m : Machine} (hm : m.Held Q K base) => entrusted_evaluate hpq hm e
  cases e with
  | literal value => exact .pure hm.self (Value.within_ofLiteral value)
  | array bracket items =>
    refine .pure hm.self (Value.within_array fun v hv => ?_)
    obtain ⟨item, -, rfl⟩ := List.mem_map.mp hv
    exact Value.within_ofLiteral item
  | grouping inner => exact hpart inner hm
  | unary operator right =>
    exact .bind (hpart right hm) fun a m₁ h₁ _ => .lift h₁.after.self fun _ => Operator.within_unary
  | binary left operator right =>
    refine .bind (hpart left hm) fun a m₁ h₁ _ => .bind (hpart right h₁.after) fun b m₂ h₂ _ => ?_
    exact .lift h₂.after.self fun _ => Operator.within_binary
  | logical left operator right =>
    refine .bind (hpart left hm) fun a m₁ h₁ ha => ?_
    split
    · exact .pure h₁.after.self ha
    · exact hpart right h₁.after
  | ternary condition question yes no =>
    refine .bind (hpart condition hm) fun c m₁ h₁ _ => ?_
    split
    · exact hpart yes h₁.after
    · exact hpart no h₁.after
  | var id name => exact hm.lookUp id name
  | this id keyword => exact hm.lookUp id keyword
  | global name =>
    refine .bind (P := fun x m' => m' = m ∧ x = m.heap.getOwn? globalFrame name.lexeme) (.look hm.self ⟨rfl, rfl⟩) ?_
    rintro x m₁ - ⟨rfl, hx⟩
    exact .orFail hm.self fun value hvalue => hm.closed.getOwn? hm.outermost (hx.symm.trans hvalue)
  | assign id name value =>
    refine .bind (hpart value hm) fun a m₁ h₁ ha => .bind (h₁.after.assign id name ha) fun _ m₂ h₂ _ => ?_
    exact .pure h₂.after.self (h₂.within ha)
  | call callee paren arguments =>
    refine .bind (hpart callee hm) fun f m₁ h₁ hf => ?_
    refine .bind (entrusted_evaluateAll hpq h₁.after arguments) fun values m₂ h₂ hvalues => ?_
    exact hpq (.invoke f values paren.line) m₂ ⟨h₂.after, h₂.within hf, hvalues⟩
  | lambda routine => exact hm.makeFunction routine
  | get object name =>
    refine .bind (hpart object hm) fun a m₁ h₁ ha => ?_
    cases a with
    | object id => exact h₁.after.property ha.object _ _
    | _ => exact .fail h₁.after.self _ _
  | set object name value =>
    refine .bind (hpart object hm) fun a m₁ h₁ ha => ?_
    cases a with
    | object id =>
      refine .bind (hpart value h₁.after) fun b m₂ h₂ hb => ?_
      have hset : m₂.heap.Secures Q K base (m₂.heap.setField id name.lexeme b) :=
        .setField h₂.after.toGuarded (h₂.mono ha.object) hb
      refine .bind (P := fun _ m' => b.Within (Q m'.heap)) (.onHeap (h₂.after.onHeap hset) ?_) fun _ m₃ h₃ hb => ?_
      · exact hb.imp fun _ => hset.mono
      · exact .pure h₃.after.self hb
    | _ => exact .fail h₁.after.self _ _
  | subscript id name index =>
    refine .bind (hm.lookUp id name) fun a m₁ h₁ ha => .bind (hpart index h₁.after) fun b m₂ h₂ _ => ?_
    exact .lift h₂.after.self fun _ => Operator.within_item (h₂.within ha)

/-! ### Statements -/

theorem entrusted_classDeclaration (name : Token) (superclass : Option Expr) (methods : List Routine) :
    Entrusted Q K base m (Evaluation.classDeclaration p name superclass methods)
      (Evaluation.classDeclaration q name superclass methods) fun _ _ => True := by
  have hparent : Entrusted Q K base m (Evaluation.superclassOf p name superclass) (Evaluation.superclassOf q name superclass)
      fun parent m' => ∀ id, parent = some id → Q m'.heap (.kind id) := by
    cases superclass with
    | none => exact .pure hm.self nofun
    | some e =>
      refine .bind (entrusted_evaluate hpq hm e) fun a m₁ h₁ ha => ?_
      cases a with
      | classValue id =>
        refine .pure h₁.after.self fun id' heq => ?_
        cases heq
        exact ha.classValue
      | _ => exact .fail h₁.after.self _ _
  refine .bind hparent fun parent m₁ h₁ hparent => ?_
  have hmentions : ∀ p, Class.Mentions ⟨name.lexeme, parent, Evaluation.methodTable m₁.frame methods⟩ p → Q m₁.heap p := by
    rintro p (⟨id, hid, rfl⟩ | ⟨key, f, hf, hp⟩)
    · exact hparent id hid
    · rcases Table.mem_putAll hf with hf | hf
      · obtain ⟨routine, -, heq⟩ := List.mem_map.mp hf
        cases heq
        cases hp
        exact h₁.after.frame
      · cases hf
  obtain ⟨hadd, hid⟩ := Heap.Secures.addClass h₁.after.toGuarded hmentions
  refine .bind (P := fun frame m' => m' = m₁ ∧ frame = m₁.frame) (.look h₁.after.self ⟨rfl, rfl⟩) ?_
  rintro frame m₂ - ⟨rfl, rfl⟩
  refine .bind (P := fun id m' => Q m'.heap (.kind id)) (.onHeap (h₁.after.onHeap hadd) hid) fun id m₂ h₂ hid => ?_
  exact h₂.after.define _ (Value.within_classValue hid)

/-- Statements in a frame of the region. -/
theorem entrusted_inFrame {frame : FrameId} (hframe : Q m.heap (.frame frame)) (body : List Stmt) :
    Entrusted Q K base m (Run.inFrame frame (Evaluation.executeAll p body)) (Run.inFrame frame (Evaluation.executeAll q body))
      fun _ _ => True := by
  have hinside : { m with frame := frame }.Held Q K base := ⟨hm.toGuarded, hframe, hm.outermost⟩
  have hback : ∀ m', { m with frame := frame }.Secures Q K base m' → m.Secures Q K base { m' with frame := m.frame } :=
    fun m' h => ⟨hm, h.kept, h.after.toGuarded, h.mono hm.frame, h.after.outermost⟩
  exact .inFrame (entrusted_executeAll hpq hinside body) (fun _ m' h _ => ⟨hback m' h, trivial⟩)
    fun s m' h => ⟨hback m' h.secures, h.returned⟩

theorem entrusted_block (body : List Stmt) :
    Entrusted Q K base m (Evaluation.block p body) (Evaluation.block q body) fun _ _ => True := by
  obtain ⟨hadd, hid⟩ := Heap.Secures.addFrame hm.toGuarded (f := { enclosing := some m.frame }) (by
    rintro _ (⟨name, value, hmem, -⟩ | ⟨parent, heq, rfl⟩)
    · cases hmem
    · cases heq
      exact hm.frame)
  refine .bind (P := fun frame m' => m' = m ∧ frame = m.frame) (.look hm.self ⟨rfl, rfl⟩) ?_
  rintro frame m₁ - ⟨rfl, rfl⟩
  refine .bind (P := fun id m' => Q m'.heap (.frame id)) (.onHeap (hm.onHeap hadd) hid) fun inner m₁ h₁ hinner => ?_
  exact entrusted_inFrame hpq h₁.after hinner body

theorem entrusted_execution (rounds : Nat) (s : Stmt) :
    Entrusted Q K base m (Evaluation.execution p rounds s) (Evaluation.execution q rounds s) fun _ _ => True := by
  have hvalue := fun (e : Expr) {m : Machine} (hm : m.Held Q K base) => entrusted_evaluate hpq hm e
  have hbranch := fun (s : Stmt) {m : Machine} (hm : m.Held Q K base) => entrusted_execute hpq hm s
  cases s with
  | expression value => exact .bind (hvalue value hm) fun _ m₁ h₁ _ => .pure h₁.after.self trivial
  | print keyword values =>
    refine .bind (entrusted_evaluateAll hpq hm values) fun values m₁ h₁ _ => ?_
    refine .bind (P := fun _ _ => True) (.look h₁.after.self trivial) fun text m₂ h₂ _ => ?_
    exact h₂.after.printLine text keyword.line
  | varDecl name value =>
    cases value with
    | none => exact hm.define _ Value.within_nil
    | some value => exact .bind (hvalue value hm) fun a m₁ h₁ ha => h₁.after.define _ ha
  | block body => exact entrusted_block hpq hm body
  | ifElse condition yes no =>
    refine .bind (hvalue condition hm) fun c m₁ h₁ _ => ?_
    split
    · exact hbranch yes h₁.after
    · cases no with
      | none => exact .pure h₁.after.self trivial
      | some no => exact hbranch no h₁.after
  | whileLoop condition body =>
    refine .repeatWhile (Machine.Held Q K base) (fun m hm => hm.self) (fun m hm => ?_) (fun m hm => ?_) rounds m hm
    · exact .bind (hvalue condition hm) fun a m₁ h₁ _ => .pure h₁.after.self h₁.after
    · exact (hbranch body hm).imp fun _ m₁ h₁ _ => h₁.after
  | function routine => exact .bind (hm.makeFunction routine) fun a m₁ h₁ ha => h₁.after.define _ ha
  | breakLoop keyword => exact .stop hm.self nofun
  | returnValue keyword value =>
    have hreturn : ∀ {m : Machine} {a : Value}, m.Held Q K base → a.Within (Q m.heap) →
        Entrusted Q K base m (Run.stop (.returned a) : Run Unit) (Run.stop (.returned a)) fun _ _ => True := by
      intro m a hm ha
      refine .of_stopped rfl rfl ⟨hm.self, fun v heq => ?_⟩
      cases heq
      exact ha
    cases value with
    | none => exact hreturn hm Value.within_nil
    | some value => exact .bind (hvalue value hm) fun a m₁ h₁ ha => hreturn h₁.after ha
  | classDecl name superclass methods => exact entrusted_classDeclaration hpq hm name superclass methods
  | useLibrary keyword path => exact hm.useLibrary path

/-! ### Calls -/

variable {arguments : List Value}

theorem entrusted_apply {f : Closure} (hf : Q m.heap (.frame f.frame))
    (harguments : ∀ v ∈ arguments, v.Within (Q m.heap)) :
    Entrusted Q K base m (Evaluation.apply p f arguments) (Evaluation.apply q f arguments)
      fun value m' => value.Within (Q m'.heap) := by
  obtain ⟨hadd, hid⟩ := Heap.Secures.addFrame hm.toGuarded
    (f := ⟨Table.putAll {} ((f.routine.params.map (·.lexeme)).zip arguments), some f.frame⟩) (by
    rintro p (⟨name, value, hmem, hp⟩ | ⟨parent, heq, rfl⟩)
    · rcases Table.mem_putAll hmem with hmem | hmem
      · exact harguments value (List.of_mem_zip hmem).2 p hp
      · cases hmem
    · cases heq
      exact hf)
  have hframe : Q (m.heap.addFrame _).2 (.frame f.frame) := hadd.mono hf
  refine .bind (P := fun id m' => Q m'.heap (.frame id) ∧ Q m'.heap (.frame f.frame)) (.onHeap (hm.onHeap hadd) ⟨hid, hframe⟩)
    fun id m₁ h₁ hid => ?_
  refine .result f (entrusted_inFrame hpq h₁.after hid.1 f.routine.body) (fun m' h => h.after.self) ?_ ?_ ?_
  · exact fun value m' h _ hvalue => h.after.closed.getOwn? (h.mono hid.2) hvalue
  · exact fun m' _ _ => Value.within_nil
  · exact fun value m' h => h.returned value rfl

theorem entrusted_nested {f : Closure} (line : Nat) (hf : Q m.heap (.frame f.frame))
    (harguments : ∀ v ∈ arguments, v.Within (Q m.heap)) :
    Entrusted Q K base m (Run.nested line (Evaluation.apply p f arguments)) (Run.nested line (Evaluation.apply q f arguments))
      fun value m' => value.Within (Q m'.heap) := by
  have hback : ∀ m', { m with depth := m.depth + 1 }.Secures Q K base m' → m.Secures Q K base { m' with depth := m'.depth - 1 } :=
    fun m' h => ⟨hm, h.kept, h.after.of_eq rfl rfl⟩
  exact .nested hm.self (entrusted_apply (m := { m with depth := m.depth + 1 }) hpq (hm.of_eq rfl rfl) hf harguments) (fun _ m' h hvalue => ⟨hback m' h, hvalue⟩)
    fun s m' h => ⟨hback m' h.secures, h.returned⟩

theorem entrusted_instantiate {classId : ClassId} {line : Nat} (hclass : Q m.heap (.kind classId))
    (harguments : ∀ v ∈ arguments, v.Within (Q m.heap)) :
    Entrusted Q K base m (Evaluation.instantiate p classId arguments line) (Evaluation.instantiate q classId arguments line)
      fun value m' => value.Within (Q m'.heap) := by
  obtain ⟨hadd, hid⟩ := Heap.Secures.addInstance hm.toGuarded (i := { classId }) (by
    rintro _ (rfl | ⟨name, value, hmem, -⟩)
    · exact hclass
    · cases hmem)
  refine .bind (P := fun id m' => Q m'.heap (.object id)) (.onHeap (hm.onHeap hadd) hid) fun id m₁ h₁ hid => ?_
  refine .bind (P := fun x m' => m' = m₁ ∧ x = m₁.heap.findMethod? classId initializerName)
    (.look h₁.after.self ⟨rfl, rfl⟩) ?_
  rintro x m₂ - ⟨rfl, hx⟩
  -- Behind the initializer the methods are copied.
  have hrest : ∀ m₃, m₂.Secures Q K base m₃ → Entrusted Q K base m₃
      (Run.onHeap (fun h => ((), h.copyLineage id classId)) >>= fun _ => pure (Value.object id))
      (Run.onHeap (fun h => ((), h.copyLineage id classId)) >>= fun _ => pure (Value.object id))
      fun value m' => value.Within (Q m'.heap) := by
    intro m₃ h₃
    have hcopy := Heap.Secures.copyLineage h₃.after.toGuarded (h₃.mono hid) (h₃.mono (h₁.mono hclass))
    refine .bind (P := fun _ m' => Q m'.heap (.object id)) (.onHeap (h₃.after.onHeap hcopy) (hcopy.mono (h₃.mono hid)))
      fun _ m₄ h₄ hid => ?_
    exact .pure h₄.after.self (Value.within_object hid)
  cases x with
  | none => exact hrest m₂ h₁.after.self
  | some method =>
    have hmethod := h₁.after.closed.findMethod? (h₁.mono hclass) hx.symm
    obtain ⟨hbind, hframe⟩ := Heap.Secures.bind h₁.after.toGuarded hmethod hid
    refine .bind (P := fun bound m' => Q m'.heap (.frame bound.frame)) (.onHeap (h₁.after.onHeap hbind) hframe)
      fun bound m₃ h₃ hbound => ?_
    have hcall := entrusted_nested hpq h₃.after line hbound fun v hv => h₃.within (h₁.within (harguments v hv))
    refine .bind (P := fun _ _ => True) (.bind hcall fun _ m₄ h₄ _ => .pure h₄.after.self trivial) fun _ m₄ h₄ _ => ?_
    exact hrest m₄ (Followed.trans (Machine.Releases Q K base) h₃ h₄)

theorem entrusted_invocation {callee : Value} (line : Nat) (hcallee : callee.Within (Q m.heap))
    (harguments : ∀ v ∈ arguments, v.Within (Q m.heap)) :
    Entrusted Q K base m (Evaluation.invocation p callee arguments line) (Evaluation.invocation q callee arguments line)
      fun value m' => value.Within (Q m'.heap) := by
  cases callee with
  | native f =>
    unfold Evaluation.invocation
    dsimp only
    split
    · exact hm.callPrimitive f.primitive arguments line
    · exact .fail hm.self _ _
  | closure id =>
    refine .bind (P := fun x m' => m' = m ∧ x = m.heap.closure? id) (.look hm.self ⟨rfl, rfl⟩) ?_
    rintro x m₁ - ⟨rfl, hx⟩
    cases x with
    | none => exact .fail hm.self _ _
    | some f =>
      dsimp only
      split
      · exact entrusted_nested hpq hm line (hm.closed.closure? hcallee.closure hx.symm) harguments
      · exact .fail hm.self _ _
  | classValue id =>
    refine .bind (P := fun _ m' => m' = m) (.look hm.self rfl) ?_
    rintro arity m₁ - rfl
    split
    · exact entrusted_instantiate hpq hm hcallee.classValue harguments
    · exact .fail hm.self _ _
  | _ => exact .fail hm.self _ _

theorem entrusted_performOver (rounds : Nat) {task : Task} (htask : task.Within (Q m.heap)) :
    Entrusted Q K base m (Evaluation.performOver p rounds task) (Evaluation.performOver q rounds task)
      fun a m' => task.Yields (Q m'.heap) a := by
  cases task with
  | evaluate e => exact entrusted_evaluation hpq hm e
  | execute s => exact entrusted_execution hpq hm rounds s
  | invoke callee arguments line => exact entrusted_invocation hpq hm line htask.1 htask.2

end

/-! ### Whole runs -/

section
variable (Q : Heap → Cell → Prop) (K : Heap → Heap → Prop) (base : Heap) [Heap.Custody Q K base]

/-- Every task that mentions cells of the region only keeps to it. -/
theorem perform_entrusted (steps : Nat) : (perform steps).Agree Q K base (perform steps) := by
  induction steps with
  | zero => exact fun t n ht => .stop ht.machine.self nofun
  | succ steps ih => exact fun t n ht => entrusted_performOver ih ht.machine steps ht.within

/-- The task of the activity, on the machine on which it began. -/
abbrev Activity.Held (a : Activity) : Prop := a.task.Held Q K base a.machine

variable {Q K base}

theorem Activity.Held.outcome {a : Activity} (h : a.Held Q K base) :
    a.outcome.Meets (fun v w => a.machine.Secures Q K base w ∧ a.task.Yields (Q w.heap) v) (a.machine.Releases Q K base) :=
  (perform_entrusted Q K base a.steps a.task a.machine h).meets

theorem Activity.Held.secures {a : Activity} (h : a.Held Q K base) : a.machine.Secures Q K base a.outcome.machine := by
  have hmeets := h.outcome
  cases hout : a.outcome with
  | done v w =>
    rw [hout] at hmeets
    exact hmeets.1
  | stopped s w =>
    rw [hout] at hmeets
    exact hmeets.secures

theorem Activity.AsksFor.held {a b : Activity} (h : a.AsksFor b) (ha : a.Held Q K base) : b.Held Q K base := by
  cases h with
  | @intro steps task m t n hasks =>
    have hgood : t.Held Q K base n := by
      refine of_asks (fun q hq => ?_) hasks
      -- Another way to do tasks that is the same on held machines makes no difference.
      have hagree : (perform steps).Agree Q K base q := fun t n ht =>
        ⟨hq t n ht, (perform_entrusted Q K base steps t n ht).meets⟩
      exact (entrusted_performOver hagree ha.machine steps ha.within).same
    exact hgood

namespace Machine

variable {steps : Nat} {program : List Stmt} {m m' : Machine} {s : Stmt}

theorem Held.next? (hm : m.Held Q K base) (h : m.next? steps s = some m') : m.Secures Q K base m' := by
  have ha : Activity.Held Q K base ⟨steps, .execute s, m⟩ := ⟨hm, trivial⟩
  exact machine_of_next? h ▸ ha.secures

theorem Underway.held {a : Activity} {outer : List Activity} (h : m.Underway steps program (a :: outer))
    (hm : m.Held Q K base) : a.Held Q K base := by
  generalize hstack : a :: outer = stack at h
  induction h generalizing a outer with
  | here =>
    cases hstack
    exact ⟨hm, trivial⟩
  | later hnext _ ih => exact ih (hm.next? hnext).after hstack
  | within _ hasks ih =>
    cases hstack
    exact hasks.held (ih hm rfl)

theorem Held.interpret (hm : m.Held Q K base) : m.Secures Q K base (m.interpret steps program).2 := by
  induction program generalizing m with
  | nil =>
    rw [interpret_nil]
    exact hm.aside rfl rfl
  | cons s rest ih =>
    have ha : Activity.Held Q K base ⟨steps, .execute s, m⟩ := ⟨hm, trivial⟩
    have hstatement : m.Secures Q K base (perform steps (.execute s) m).machine := ha.secures
    rcases interpret_cons steps s rest m with ⟨m₁, hnext, heq⟩ | ⟨-, heq | heq⟩
    · rw [heq]
      exact Followed.trans (Releases Q K base) (hm.next? hnext) (ih (hm.next? hnext).after)
    · rw [heq]
      exact hstatement
    · rw [heq]
      have hafter := hstatement.after
      exact ⟨hm, hstatement.kept, hafter.toGuarded, hafter.outermost, hafter.outermost⟩

end Machine

end

end Treewalk
