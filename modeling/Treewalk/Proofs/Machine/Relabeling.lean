import Treewalk.Machine.Interpretation
import Treewalk.Proofs.Heap.Relabeling

/-!
Running goes by what a program says and not by its labels. A twin of a machine holds the same with new labels, and its
table has the same distances for the new identities. From twins, a task and the task with new labels come to twins: the
same values, the same texts, and the same failures at their new lines.
-/

namespace Treewalk

/-- The notice at its new line. -/
def MissingLibrary.relabel (f : Relabeling) (n : MissingLibrary) : MissingLibrary := { n with line := f.line n.line }

/-- The failure at its new line. -/
def RuntimeError.relabel (f : Relabeling) (e : RuntimeError) : RuntimeError := { e with line := f.line e.line }

/-- The signal, with a failure at its new line. -/
def Signal.relabel (f : Relabeling) : Signal → Signal
  | .failed e => .failed (e.relabel f)
  | .returned value => .returned value
  | .broke => .broke
  | .suspended => .suspended

/-- Two sinks that hold the same text, and will take or refuse the same from now on. -/
structure Sink.Twin (s s' : Sink) : Prop where
  text : s'.text = s.text
  refusesWrite : ∀ n text, s'.refusesWrite (s'.asked + n) text = s.refusesWrite (s.asked + n) text
  refusesFlush : ∀ n text, s'.refusesFlush (s'.asked + n) text = s.refusesFlush (s.asked + n) text

/-- The second machine has the table of the first one, and its sink takes and refuses by the same rules. -/
def Machine.SameRules (m m' : Machine) : Prop :=
  m'.distances = m.distances ∧ m'.sink.refusesWrite = m.sink.refusesWrite ∧ m'.sink.refusesFlush = m.sink.refusesFlush

/-- What stays while two machines run side by side: the new labels of the second one, the notices that it began with,
and the machines that the two of them began as. -/
structure Pairing where
  labels : Relabeling
  before : List MissingLibrary
  first : Machine
  second : Machine

/-- Two machines of which the second one is the first one with new labels. It has notices of its own behind it. -/
structure Machine.Twin (x : Pairing) (m m' : Machine) : Prop where
  heap : m'.heap = m.heap.relabel x.labels
  frame : m'.frame = m.frame
  depth : m'.depth = m.depth
  distances : m.distances.Twin x.labels m'.distances
  sink : m.sink.Twin m'.sink
  input : m'.input = m.input
  clock : m'.clock = m.clock
  host : m'.host = m.host
  notices : m'.notices = x.before ++ m.notices.map (·.relabel x.labels)
  rules : x.first.SameRules m ∧ x.second.SameRules m'

/-- Two outcomes with related results, or with the same signal but for its line, on twins. -/
def Outcome.Twin (x : Pairing) {α β : Type} (V : α → β → Prop) :
    Outcome α → Outcome β → Prop
  | .done a m, .done b m' => V a b ∧ m.Twin x m'
  | .stopped s m, .stopped s' m' => s' = s.relabel x.labels ∧ m.Twin x m'
  | _, _ => False

/-- Two runs that come to the same from twins. -/
def Run.Twin (x : Pairing) {α β : Type} (V : α → β → Prop) (r : Run α)
    (r' : Run β) : Prop :=
  ∀ m m', Machine.Twin x m m' → (r m).Twin x V (r' m')

/-! ### Sinks -/

namespace Sink.Twin

variable {s s' : Sink}

theorem refl (s : Sink) : s.Twin s := ⟨rfl, fun _ _ => rfl, fun _ _ => rfl⟩

theorem ask (h : s.Twin s') : { s with asked := s.asked + 1 }.Twin { s' with asked := s'.asked + 1 } := by
  refine ⟨h.text, fun n text => ?_, fun n text => ?_⟩
  · rw [Nat.add_assoc, Nat.add_assoc]
    exact h.refusesWrite (1 + n) text
  · rw [Nat.add_assoc, Nat.add_assoc]
    exact h.refusesFlush (1 + n) text

theorem hold (h : s.Twin s') (text : String) : { s with text }.Twin { s' with text } :=
  ⟨rfl, h.refusesWrite, h.refusesFlush⟩

theorem write (h : s.Twin s') (piece : String) :
    (s.write piece).1.Twin (s'.write piece).1 ∧ (s'.write piece).2 = (s.write piece).2 := by
  have hrefuses : s'.refusesWrite s'.asked s.text = s.refusesWrite s.asked s.text := h.refusesWrite 0 s.text
  unfold Sink.write
  rw [h.text, hrefuses]
  split
  · exact ⟨h, rfl⟩
  · cases s.refusesWrite s.asked s.text with
    | some reason => exact ⟨h.ask.hold s.text, rfl⟩
    | none => exact ⟨h.ask.hold (s.text ++ piece), rfl⟩

theorem writeLine (h : s.Twin s') (line : String) :
    (s.writeLine line).1.Twin (s'.writeLine line).1 ∧ (s'.writeLine line).2 = (s.writeLine line).2 := by
  obtain ⟨htwin, hsame⟩ := h.write line
  unfold Sink.writeLine
  rcases hw : s.write line with ⟨next, refusal⟩
  rcases hw' : s'.write line with ⟨next', refusal'⟩
  rw [hw, hw'] at htwin hsame
  cases refusal with
  | none =>
    cases hsame
    exact htwin.write "\n"
  | some reason =>
    cases hsame
    exact ⟨htwin, rfl⟩

theorem flush (h : s.Twin s') : s.flush.1.Twin s'.flush.1 ∧ s'.flush.2 = s.flush.2 := by
  have hrefuses : s'.refusesFlush s'.asked s.text = s.refusesFlush s.asked s.text := h.refusesFlush 0 s.text
  refine ⟨h.ask, ?_⟩
  show s'.refusesFlush s'.asked s'.text = _
  rw [h.text, hrefuses]
  rfl

end Sink.Twin

theorem Sink.write_rules (s : Sink) (piece : String) :
    (s.write piece).1.refusesWrite = s.refusesWrite ∧ (s.write piece).1.refusesFlush = s.refusesFlush := by
  unfold Sink.write
  split
  · exact ⟨rfl, rfl⟩
  · split
    · exact ⟨rfl, rfl⟩
    · exact ⟨rfl, rfl⟩

theorem Sink.writeLine_rules (s : Sink) (line : String) :
    (s.writeLine line).1.refusesWrite = s.refusesWrite ∧ (s.writeLine line).1.refusesFlush = s.refusesFlush := by
  have hline := s.write_rules line
  unfold Sink.writeLine
  rcases hw : s.write line with ⟨next, _ | reason⟩ <;> rw [hw] at hline
  · have hend := next.write_rules "\n"
    exact ⟨hend.1.trans hline.1, hend.2.trans hline.2⟩
  · exact hline

theorem Machine.SameRules.rfl {m : Machine} : m.SameRules m := ⟨Eq.refl _, Eq.refl _, Eq.refl _⟩

theorem Machine.SameRules.writeLine {m m' : Machine} (h : m.SameRules m') (line : String) :
    m.SameRules { m' with sink := (m'.sink.writeLine line).1 } :=
  ⟨h.1, (m'.sink.writeLine_rules line).1.trans h.2.1, (m'.sink.writeLine_rules line).2.trans h.2.2⟩

/-! ### Elementary runs -/

namespace Run.Twin

variable {x : Pairing} {α β γ δ : Type} {V : α → β → Prop} {W : γ → δ → Prop}

theorem pure {a : α} {b : β} (h : V a b) : Twin x V (Pure.pure a) (Pure.pure b) := fun _ _ hm => ⟨h, hm⟩

theorem bind {r : Run α} {r' : Run β} {k : α → Run γ} {k' : β → Run δ} (h : Twin x V r r')
    (hk : ∀ a b, V a b → Twin x W (k a) (k' b)) : Twin x W (r >>= k) (r' >>= k') := by
  intro m m' hm
  have hr := h m m' hm
  show (Run.bind r k m).Twin x W (Run.bind r' k' m')
  unfold Run.bind
  cases hrm : r m <;> cases hrm' : r' m' <;> rw [hrm, hrm'] at hr
  case done.done a n b n' => exact hk a b hr.1 n n' hr.2
  case stopped.stopped => exact hr
  all_goals exact hr.elim

theorem map {r : Run α} {r' : Run β} {k : α → γ} {k' : β → δ} (h : Twin x V r r')
    (hk : ∀ a b, V a b → W (k a) (k' b)) : Twin x W (k <$> r) (k' <$> r') :=
  h.bind fun a b hab => pure (hk a b hab)

theorem discard {r : Run α} {r' : Run β} (h : Twin x V r r') :
    Twin x Eq (Functor.discard r) (Functor.discard r') :=
  h.bind fun _ _ _ => pure rfl

theorem stop (s : Signal) : Twin x V (Run.stop s) (Run.stop (s.relabel x.labels)) := fun _ _ hm => ⟨rfl, hm⟩

theorem fail (line : Nat) (fault : RuntimeFault) :
    Twin x V (Run.fail line fault) (Run.fail (x.labels.line line) fault) :=
  stop _

theorem look {k : Machine → α} {k' : Machine → β} (h : ∀ m m', m.Twin x m' → V (k m) (k' m')) :
    Twin x V (Run.look k) (Run.look k') := fun m m' hm => ⟨h m m' hm, hm⟩

theorem change {k k' : Machine → Machine} (h : ∀ m m', m.Twin x m' → (k m).Twin x (k' m')) :
    Twin x Eq (Run.change k) (Run.change k') := fun m m' hm => ⟨rfl, h m m' hm⟩

theorem onHeap {k : Heap → α × Heap} {k' : Heap → β × Heap}
    (h : ∀ heap, V (k heap).1 (k' (heap.relabel x.labels)).1 ∧
      (k' (heap.relabel x.labels)).2 = (k heap).2.relabel x.labels) :
    Twin x V (Run.onHeap k) (Run.onHeap k') := by
  intro m m' hm
  have hheap := h m.heap
  rw [← hm.heap] at hheap
  exact ⟨hheap.1, { hm with heap := hheap.2 }⟩

/-- A change of the heap that goes by what the labels do not change gives the same in both heaps. -/
theorem onHeapSame {k k' : Heap → α × Heap}
    (h : ∀ heap, k' (heap.relabel x.labels) = ((k heap).1, (k heap).2.relabel x.labels)) :
    Twin x Eq (Run.onHeap k) (Run.onHeap k') :=
  onHeap fun heap => ⟨(congrArg Prod.fst (h heap)).symm, congrArg Prod.snd (h heap)⟩

theorem orFail {value : Option α} {value' : Option β} (h : Option.Rel V value value') (line : Nat)
    (fault : RuntimeFault) : Twin x V (Run.orFail value line fault) (Run.orFail value' (x.labels.line line) fault) := by
  cases h with
  | some h => exact pure h
  | none => exact fail line fault

theorem lift (result : Except RuntimeFault α) (line : Nat) :
    Twin x Eq (Run.lift result line) (Run.lift result (x.labels.line line)) := by
  cases result with
  | ok a => exact pure rfl
  | error fault => exact fail line fault

theorem inFrame {r : Run α} {r' : Run β} (h : Twin x V r r') (frame : FrameId) :
    Twin x V (Run.inFrame frame r) (Run.inFrame frame r') := by
  intro m m' hm
  have hr := h { m with frame } { m' with frame } { hm with frame := rfl }
  have back : ∀ {n n' : Machine}, n.Twin x n' →
      { n with frame := m.frame }.Twin x { n' with frame := m'.frame } := fun hn => { hn with frame := hm.frame }
  unfold Run.inFrame
  dsimp only
  cases hrm : r { m with frame } <;> cases hrm' : r' { m' with frame } <;> rw [hrm, hrm'] at hr
  case done.done => exact ⟨hr.1, back hr.2⟩
  case stopped.stopped => exact ⟨hr.1, back hr.2⟩
  all_goals exact hr.elim

theorem nested {r : Run α} {r' : Run β} (h : Twin x V r r') (line : Nat) :
    Twin x V (Run.nested line r) (Run.nested (x.labels.line line) r') := by
  intro m m' hm
  have deep : ∀ {n n' : Machine}, n.Twin x n' → ∀ change : Nat → Nat,
      { n with depth := change n.depth }.Twin x { n' with depth := change n'.depth } := fun hn change =>
    { hn with depth := congrArg change hn.depth }
  have hr := h { m with depth := m.depth + 1 } { m' with depth := m'.depth + 1 } (deep hm (· + 1))
  unfold Run.nested
  rw [hm.depth] at hr ⊢
  split
  · exact fail line .tooDeep m m' hm
  · cases hrm : r { m with depth := m.depth + 1 } <;> cases hrm' : r' { m' with depth := m.depth + 1 } <;>
      rw [hrm, hrm'] at hr
    case done.done => exact ⟨hr.1, deep hr.2 (· - 1)⟩
    case stopped.stopped => exact ⟨hr.1, deep hr.2 (· - 1)⟩
    all_goals exact hr.elim

theorem repeatWhile {test test' : Run Bool} {body body' : Run Unit} (ht : Twin x Eq test test')
    (hb : Twin x Eq body body') (rounds : Nat) :
    Twin x Eq (Run.repeatWhile test body rounds) (Run.repeatWhile test' body' rounds) := by
  induction rounds with
  | zero => exact stop .suspended
  | succ rounds ih =>
    intro m m' hm
    have htm := ht m m' hm
    unfold Run.repeatWhile
    cases hrm : test m <;> cases hrm' : test' m' <;> rw [hrm, hrm'] at htm
    case done.stopped => exact htm.elim
    case stopped.done => exact htm.elim
    case stopped.stopped => exact htm
    case done.done again n again' n' =>
      obtain ⟨rfl, hn⟩ := htm
      cases again with
      | false => exact ⟨rfl, hn⟩
      | true =>
        have hbn := hb n n' hn
        dsimp only
        cases hbm : body n <;> cases hbm' : body' n' <;> rw [hbm, hbm'] at hbn
        case done.done => exact ih _ _ hbn.2
        case done.stopped => exact hbn.elim
        case stopped.done => exact hbn.elim
        case stopped.stopped s q s' q' =>
          obtain ⟨rfl, hq⟩ := hbn
          cases s with
          | broke => exact ⟨rfl, hq⟩
          | failed e => exact ⟨rfl, hq⟩
          | returned value => exact ⟨rfl, hq⟩
          | suspended => exact ⟨rfl, hq⟩

end Run.Twin

/-! ### References and bindings -/

namespace Machine.Twin

variable {x : Pairing} {m m' : Machine}

theorem target? (h : m.Twin x m') (id : Nat) (name : String) :
    m'.target? (x.labels.node id) name = m.target? id name := by
  unfold Machine.target?
  rw [h.distances id, h.heap, h.frame, Heap.owner?_relabel]
  cases m.distances.find? id with
  | none => rfl
  | some distance => exact Heap.ancestor?_relabel x.labels m.heap m.frame distance

theorem lookUp? (h : m.Twin x m') (id : Nat) (name : String) :
    m'.lookUp? (x.labels.node id) name = m.lookUp? id name := by
  unfold Machine.lookUp?
  rw [h.target?, h.heap]
  rfl

theorem define (h : m.Twin x m') (frame : FrameId) (name : String) (value : Value) :
    (m.define frame name value).Twin x (m'.define frame name value) := by
  refine { h with heap := ?_ }
  show m'.heap.define frame name value = _
  rw [h.heap]
  exact Heap.define_relabel x.labels m.heap frame name value

end Machine.Twin

namespace Run.Twin

variable {x : Pairing}

theorem lookUp (id : Nat) (name : Token) :
    Twin x Eq (Run.lookUp id name) (Run.lookUp (x.labels.node id) (name.relabel x.labels)) := by
  intro m m' hm
  unfold Run.lookUp
  rw [show (name.relabel x.labels).lexeme = name.lexeme from rfl, hm.lookUp?]
  cases m.lookUp? id name.lexeme with
  | some value => exact ⟨rfl, hm⟩
  | none => exact fail name.line _ m m' hm

theorem assign (id : Nat) (name : Token) (value : Value) :
    Twin x Eq (Run.assign id name value) (Run.assign (x.labels.node id) (name.relabel x.labels) value) := by
  intro m m' hm
  unfold Run.assign
  rw [show (name.relabel x.labels).lexeme = name.lexeme from rfl, hm.target?]
  cases m.target? id name.lexeme with
  | some frame => exact ⟨rfl, hm.define frame name.lexeme value⟩
  | none => exact fail name.line _ m m' hm

theorem define (name : String) (value : Value) :
    Twin x Eq (Run.define name value) (Run.define name value) :=
  change fun _ _ hm => by
    rw [hm.frame]
    exact hm.define _ name value

theorem makeFunction (routine : Routine) :
    Twin x Eq (Run.makeFunction routine) (Run.makeFunction (routine.relabel x.labels)) := by
  refine (look fun m m' hm => hm.frame.symm).bind fun frame _ hframe => ?_
  subst hframe
  refine (onHeapSame ?_).bind fun id _ hid => pure (congrArg Value.closure hid)
  exact fun heap => Heap.addClosure_relabel x.labels heap ⟨routine, frame, false⟩

theorem property (id : InstanceId) (name : String) (line : Nat) :
    Twin x Eq (Run.property id name line) (Run.property id name (x.labels.line line)) := by
  refine (look (V := fun a b => b = a.map (·.relabel x.labels)) fun m m' hm => ?_).bind fun a b hab => ?_
  · rw [hm.heap, Heap.property?_relabel]
  · subst hab
    match a with
    | some (.field value) => exact pure rfl
    | some (.method method) => exact onHeapSame fun heap => Heap.bindValue_relabel x.labels heap method id
    | none => exact fail line _

theorem setField (id : InstanceId) (name : String) (value : Value) :
    Twin x Eq (Run.setField id name value) (Run.setField id name value) :=
  onHeapSame fun heap => congrArg (Prod.mk ()) (Heap.setField_relabel x.labels heap id name value)

/-! ### Channels and native functions -/

theorem printLine (text : String) (line : Nat) :
    Twin x Eq (Run.printLine text line) (Run.printLine text (x.labels.line line)) := by
  intro m m' hm
  obtain ⟨hsink, hrefusal⟩ := hm.sink.writeLine text
  have hm' : { m with sink := (m.sink.writeLine text).1 }.Twin x { m' with sink := (m'.sink.writeLine text).1 } :=
    { hm with sink := hsink, rules := ⟨hm.rules.1.writeLine text, hm.rules.2.writeLine text⟩ }
  unfold Run.printLine
  dsimp only
  rw [hrefusal]
  cases (m.sink.writeLine text).2 with
  | none => exact ⟨rfl, hm'⟩
  | some reason => exact fail line _ _ _ hm'

theorem readClock : Twin x Eq Run.readClock Run.readClock := by
  intro m m' hm
  unfold Run.readClock
  rw [hm.clock]
  exact ⟨rfl, { hm with clock := rfl }⟩

theorem readWord (line : Nat) : Twin x Eq (Run.readWord line) (Run.readWord (x.labels.line line)) := by
  intro m m' hm
  unfold Run.readWord
  rw [hm.input]
  have hm' : { m with input := m.input.takeWord.2 }.Twin x { m' with input := m.input.takeWord.2 } :=
    { hm with input := rfl }
  dsimp only
  cases m.input.takeWord.1 with
  | error reason => exact fail line _ _ _ hm'
  | ok word =>
    cases word with
    | some text => exact ⟨rfl, hm'⟩
    | none => exact ⟨rfl, hm'⟩

theorem ofNative (result : Except NativeFault Value) (line : Nat) :
    Twin x Eq (Run.ofNative result line) (Run.ofNative result (x.labels.line line)) := by
  cases result with
  | ok value => exact pure rfl
  | error fault => exact fail line _

theorem callHost (index : Nat) (arguments : List Value) (line : Nat) :
    Twin x Eq (Run.callHost index arguments line) (Run.callHost index arguments (x.labels.line line)) := by
  intro m m' hm
  unfold Run.callHost
  rw [hm.host]
  cases m.host[index]? with
  | none => exact ⟨rfl, hm⟩
  | some function =>
    dsimp only
    cases function arguments with
    | ok literal => exact ⟨rfl, hm⟩
    | error message => exact fail line _ m m' hm

theorem callPrimitive (primitive : Primitive) (arguments : List Value) (line : Nat) :
    Twin x Eq (Run.callPrimitive primitive arguments line)
      (Run.callPrimitive primitive arguments (x.labels.line line)) := by
  cases primitive with
  | clock => exact readClock
  | readWord => exact readWord line
  | host index => exact callHost index arguments line
  | _ => exact ofNative _ line

theorem useLibrary (path : Token) : Twin x Eq (Run.useLibrary path) (Run.useLibrary (path.relabel x.labels)) := by
  refine change fun m m' hm => ?_
  dsimp only
  rw [show (path.relabel x.labels).lexeme = path.lexeme from rfl]
  split
  · exact hm.define _ _ _
  · refine { hm with notices := ?_ }
    rw [List.map_append, ← List.append_assoc, ← hm.notices]
    rfl

end Run.Twin

/-! ### Expressions, statements and calls -/

/-- Two ways to do tasks, of which the second one does with new labels what the first one does. -/
structure Performer.Twin (x : Pairing) (p p' : Performer) : Prop where
  evaluate : ∀ e, Run.Twin x Eq (Evaluation.evaluate p e) (Evaluation.evaluate p' (e.relabel x.labels))
  execute : ∀ s, Run.Twin x Eq (Evaluation.execute p s) (Evaluation.execute p' (s.relabel x.labels))
  invoke : ∀ callee arguments line, Run.Twin x Eq (p (.invoke callee arguments line) : Run Value)
    (p' (.invoke callee arguments (x.labels.line line)) : Run Value)

theorem Expr.line?_relabel (f : Relabeling) (e : Expr) : (e.relabel f).line? = e.line?.map f.line := by
  cases e with
  | grouping inner => exact inner.line?_relabel f
  | lambda routine =>
    cases routine
    rfl
  | _ => rfl

namespace Evaluation

variable {x : Pairing} {p p' : Performer} (hp : Performer.Twin x p p')
include hp

theorem twin_evaluateAll (es : List Expr) :
    Run.Twin x Eq (evaluateAll p es) (evaluateAll p' (Expr.relabelAll x.labels es)) := by
  induction es with
  | nil => exact .pure rfl
  | cons e rest ih =>
    refine (hp.evaluate e).bind fun value _ hvalue => ih.bind fun values _ hvalues => .pure ?_
    rw [hvalue, hvalues]

theorem twin_executeAll (body : List Stmt) :
    Run.Twin x Eq (executeAll p body) (executeAll p' (Stmt.relabelAll x.labels body)) := by
  induction body with
  | nil => exact .pure rfl
  | cons s rest ih =>
    intro m m' hm
    have hs := hp.execute s m m' hm
    simp only [Stmt.relabelAll, executeAll]
    cases hsm : execute p s m <;> cases hsm' : execute p' (s.relabel x.labels) m' <;> rw [hsm, hsm'] at hs
    case done.done => exact ih _ _ hs.2
    case stopped.stopped => exact hs
    all_goals exact hs.elim

theorem twin_evaluation (e : Expr) : Run.Twin x Eq (evaluation p e) (evaluation p' (e.relabel x.labels)) := by
  cases e with
  | literal value => exact .pure rfl
  | array bracket items => exact .pure rfl
  | grouping inner => exact hp.evaluate inner
  | unary operator right =>
    refine (hp.evaluate right).bind fun value _ hvalue => ?_
    subst hvalue
    exact .lift _ operator.line
  | binary left operator right =>
    refine (hp.evaluate left).bind fun a _ ha => (hp.evaluate right).bind fun b _ hb => ?_
    subst ha hb
    exact .lift _ operator.line
  | logical left operator right =>
    refine (hp.evaluate left).bind fun a _ ha => ?_
    subst ha
    show Run.Twin x Eq (if Operator.decides operator a then _ else _)
      (if Operator.decides operator a then _ else _)
    split
    · exact .pure rfl
    · exact hp.evaluate right
  | ternary condition question yes no =>
    refine (hp.evaluate condition).bind fun c _ hc => ?_
    subst hc
    split
    · exact hp.evaluate yes
    · exact hp.evaluate no
  | var id name => exact .lookUp id name
  | this id keyword => exact .lookUp id keyword
  | global name =>
    refine (Run.Twin.look (V := Option.Rel Eq) fun m m' hm => ?_).bind fun _ _ h => .orFail h name.line _
    rw [hm.heap, Heap.getOwn?_relabel]
    dsimp only [Token.relabel]
    cases m.heap.getOwn? globalFrame name.lexeme with
    | none => exact .none
    | some value => exact .some rfl
  | assign id name value =>
    refine (hp.evaluate value).bind fun v _ hv => ?_
    subst hv
    exact (Run.Twin.assign id name v).bind fun _ _ _ => .pure rfl
  | call callee paren arguments =>
    refine (hp.evaluate callee).bind fun c _ hc => (twin_evaluateAll hp arguments).bind fun values _ hvalues => ?_
    subst hc hvalues
    exact hp.invoke c values paren.line
  | lambda routine => exact .makeFunction routine
  | get object name =>
    refine (hp.evaluate object).bind fun v _ hv => ?_
    subst hv
    cases v with
    | object id => exact .property id name.lexeme name.line
    | _ => exact .fail name.line _
  | set object name value =>
    refine (hp.evaluate object).bind fun v _ hv => ?_
    subst hv
    cases v with
    | object id =>
      refine (hp.evaluate value).bind fun x _ hx => ?_
      subst hx
      exact (Run.Twin.setField id name.lexeme x).bind fun _ _ _ => .pure rfl
    | _ => exact .fail name.line _
  | subscript id name index =>
    refine (Run.Twin.lookUp id name).bind fun a _ ha => (hp.evaluate index).bind fun b _ hb => ?_
    subst ha hb
    exact .lift _ name.line

theorem twin_superclassOf (name : Token) (superclass : Option Expr) :
    Run.Twin x Eq (superclassOf p name superclass)
      (superclassOf p' (name.relabel x.labels) (superclass.map (·.relabel x.labels))) := by
  cases superclass with
  | none => exact .pure rfl
  | some e =>
    refine (hp.evaluate e).bind fun v _ hv => ?_
    subst hv
    have hline : (e.relabel x.labels).line?.getD (name.relabel x.labels).line
        = x.labels.line (e.line?.getD name.line) := by
      rw [Expr.line?_relabel]
      exact Option.getD_map ..
    cases v with
    | classValue id => exact .pure rfl
    | _ =>
      dsimp only
      rw [hline]
      exact .fail _ _

omit hp in
theorem methodTable_relabel (frame : FrameId) (methods : List Routine) :
    methodTable frame (Routine.relabelAll x.labels methods) = (methodTable frame methods).map (·.relabel x.labels) := by
  have hentries : (Routine.relabelAll x.labels methods).map
      (fun r => (r.name.lexeme, (⟨r, frame, r.name.lexeme == initializerName⟩ : Closure)))
      = (methods.map fun r => (r.name.lexeme, (⟨r, frame, r.name.lexeme == initializerName⟩ : Closure))).map
          (Table.mapEntry (·.relabel x.labels)) := by
    rw [Routine.relabelAll_eq_map, List.map_map, List.map_map]
    refine List.map_congr_left fun r _ => ?_
    cases r
    rfl
  unfold methodTable
  rw [hentries]
  exact Table.putAll_map (Closure.relabel x.labels) {} _

theorem twin_classDeclaration (name : Token) (superclass : Option Expr) (methods : List Routine) :
    Run.Twin x Eq (classDeclaration p name superclass methods)
      (classDeclaration p' (name.relabel x.labels) (superclass.map (·.relabel x.labels))
        (Routine.relabelAll x.labels methods)) := by
  refine (twin_superclassOf hp name superclass).bind fun parent _ hparent => ?_
  refine (Run.Twin.look fun m m' hm => hm.frame.symm).bind fun frame _ hframe => ?_
  subst hparent hframe
  rw [methodTable_relabel]
  refine (Run.Twin.onHeapSame ?_).bind fun id _ hid => ?_
  · exact fun heap => Heap.addClass_relabel x.labels heap ⟨name.lexeme, parent, methodTable frame methods⟩
  · subst hid
    exact .define name.lexeme (.classValue id)

theorem twin_block (body : List Stmt) :
    Run.Twin x Eq (block p body) (block p' (Stmt.relabelAll x.labels body)) := by
  refine (Run.Twin.look fun m m' hm => hm.frame.symm).bind fun frame _ hframe => ?_
  subst hframe
  refine (Run.Twin.onHeapSame ?_).bind fun inner _ hinner => ?_
  · exact fun heap => Heap.addChild_relabel x.labels heap frame
  · subst hinner
    exact (twin_executeAll hp body).inFrame inner

theorem twin_execution (rounds : Nat) (s : Stmt) :
    Run.Twin x Eq (execution p rounds s) (execution p' rounds (s.relabel x.labels)) := by
  cases s with
  | expression value => exact (hp.evaluate value).discard
  | print keyword values =>
    refine (twin_evaluateAll hp values).bind fun vs _ hvs => ?_
    subst hvs
    refine (Run.Twin.look (V := Eq) fun m m' hm => ?_).bind fun text _ htext => ?_
    · rw [hm.heap, Value.texts_relabel]
    · subst htext
      exact .printLine text keyword.line
  | varDecl name initializer =>
    cases initializer with
    | none => exact .define name.lexeme .nil
    | some value =>
      refine (hp.evaluate value).bind fun v _ hv => ?_
      subst hv
      exact .define name.lexeme v
  | block body => exact twin_block hp body
  | ifElse condition yes no =>
    cases no with
    | none =>
      refine (hp.evaluate condition).bind fun c _ hc => ?_
      subst hc
      split
      · exact hp.execute yes
      · exact .pure rfl
    | some no =>
      refine (hp.evaluate condition).bind fun c _ hc => ?_
      subst hc
      split
      · exact hp.execute yes
      · exact hp.execute no
  | whileLoop condition body =>
    exact .repeatWhile ((hp.evaluate condition).map fun _ _ h => congrArg Value.truthy h) (hp.execute body) rounds
  | function routine =>
    obtain ⟨name, params, body⟩ := routine
    refine (Run.Twin.makeFunction ⟨name, params, body⟩).bind fun v _ hv => ?_
    subst hv
    exact .define name.lexeme v
  | breakLoop keyword => exact .stop .broke
  | returnValue keyword value =>
    cases value with
    | none => exact .stop (.returned .nil)
    | some value =>
      refine (hp.evaluate value).bind fun v _ hv => ?_
      subst hv
      exact .stop (.returned v)
  | classDecl name superclass methods =>
    cases superclass with
    | none => exact twin_classDeclaration hp name none methods
    | some parent => exact twin_classDeclaration hp name (some parent) methods
  | useLibrary keyword path => exact .useLibrary path

omit hp in
theorem twin_receiver (c : Closure) : Run.Twin x Eq (receiver c) (receiver (c.relabel x.labels)) := by
  obtain ⟨⟨name, params, body⟩, frame, isInitializer⟩ := c
  refine (Run.Twin.look (V := Option.Rel Eq) fun m m' hm => ?_).bind fun _ _ h => .orFail h name.line _
  rw [hm.heap, Heap.getAt?_relabel]
  dsimp only [Closure.relabel]
  cases m.heap.getAt? frame 0 receiverName with
  | none => exact .none
  | some value => exact .some rfl

omit hp in
theorem twin_result (c : Closure) {body body' : Run Unit} (hb : Run.Twin x Eq body body') :
    Run.Twin x Eq (result c body) (result (c.relabel x.labels) body') := by
  intro m m' hm
  have hbm := hb m m' hm
  unfold result
  cases hrm : body m <;> cases hrm' : body' m' <;> rw [hrm, hrm'] at hbm
  case done.stopped => exact hbm.elim
  case stopped.done => exact hbm.elim
  case done.done =>
    show (if c.isInitializer then _ else _ : Outcome Value).Twin x Eq (if c.isInitializer then _ else _)
    split
    · exact twin_receiver c _ _ hbm.2
    · exact ⟨rfl, hbm.2⟩
  case stopped.stopped s n s' n' =>
    obtain ⟨rfl, hn⟩ := hbm
    cases s with
    | returned value => exact ⟨rfl, hn⟩
    | failed e => exact ⟨rfl, hn⟩
    | broke => exact ⟨rfl, hn⟩
    | suspended => exact ⟨rfl, hn⟩

theorem twin_apply (c : Closure) (arguments : List Value) :
    Run.Twin x Eq (apply p c arguments) (apply p' (c.relabel x.labels) arguments) := by
  obtain ⟨⟨name, params, body⟩, frame, isInitializer⟩ := c
  have hparams : (params.map (·.relabel x.labels)).map (·.lexeme) = params.map (·.lexeme) := by
    rw [List.map_map]
    rfl
  unfold apply
  dsimp only [Closure.relabel, Routine.relabel]
  rw [hparams]
  refine (Run.Twin.onHeapSame ?_).bind fun inner _ hinner => ?_
  · exact fun heap => Heap.addFrame_relabel x.labels heap _
  · subst hinner
    exact twin_result ⟨⟨name, params, body⟩, frame, isInitializer⟩ ((twin_executeAll hp body).inFrame inner)

theorem twin_instantiate (classId : ClassId) (arguments : List Value) (line : Nat) :
    Run.Twin x Eq (instantiate p classId arguments line) (instantiate p' classId arguments (x.labels.line line)) := by
  refine (Run.Twin.onHeapSame fun heap => Heap.addInstance_relabel x.labels heap _).bind fun id _ hid => ?_
  subst hid
  refine (Run.Twin.look (V := fun a b => b = a.map (·.relabel x.labels)) fun m m' hm => ?_).bind fun method _ hmethod => ?_
  · rw [hm.heap, Heap.findMethod?_relabel]
  have finish : Run.Twin x Eq (do
      Run.onHeap fun h => ((), h.copyLineage id classId)
      return Value.object id) (do
      Run.onHeap fun h => ((), h.copyLineage id classId)
      return Value.object id) := by
    refine (Run.Twin.onHeapSame ?_).bind fun _ _ _ => .pure rfl
    exact fun heap => congrArg (Prod.mk ()) (Heap.copyLineage_relabel x.labels heap id classId)
  subst hmethod
  cases method with
  | none => exact finish
  | some method =>
    refine (Run.Twin.onHeap (V := fun a b => b = a.relabel x.labels) ?_).bind fun bound _ hbound => ?_
    · exact fun heap => ⟨rfl, rfl⟩
    subst hbound
    exact ((twin_apply hp bound arguments).nested line).discard.bind fun _ _ _ => finish

theorem twin_invocation (callee : Value) (arguments : List Value) (line : Nat) :
    Run.Twin x Eq (invocation p callee arguments line) (invocation p' callee arguments (x.labels.line line)) := by
  cases callee with
  | native native =>
    show Run.Twin x Eq (if native.arity.accepts arguments.length then _ else _)
      (if native.arity.accepts arguments.length then _ else _)
    split
    · exact .callPrimitive native.primitive arguments line
    · exact .fail line _
  | closure id =>
    refine (Run.Twin.look (V := fun a b => b = a.map (·.relabel x.labels)) fun m m' hm => ?_).bind fun c _ hc => ?_
    · rw [hm.heap, Heap.closure?_relabel]
    · subst hc
      cases c with
      | none => exact .fail line _
      | some c =>
        show Run.Twin x Eq (if c.arity = arguments.length then _ else _)
          (if (c.relabel x.labels).arity = arguments.length then _ else _)
        rw [Closure.arity_relabel]
        split
        · exact (twin_apply hp c arguments).nested line
        · exact .fail line _
  | classValue id =>
    refine (Run.Twin.look (V := Eq) fun m m' hm => ?_).bind fun arity _ harity => ?_
    · rw [hm.heap, Heap.classArity_relabel]
    · subst harity
      split
      · exact twin_instantiate hp id arguments line
      · exact .fail line _
  | _ => exact .fail line _

theorem twin_performOver (rounds : Nat) : Performer.Twin x (performOver p rounds) (performOver p' rounds) where
  evaluate := twin_evaluation hp
  execute := twin_execution hp rounds
  invoke := twin_invocation hp

end Evaluation

/-! ### Whole programs -/

theorem twin_perform (x : Pairing) (steps : Nat) : Performer.Twin x (perform steps) (perform steps) := by
  induction steps with
  | zero => exact ⟨fun _ => .stop .suspended, fun _ => .stop .suspended, fun _ _ _ => .stop .suspended⟩
  | succ steps ih => exact Evaluation.twin_performOver ih steps

/-- The ending, with a failure at its new line. -/
def Ending.relabel (f : Relabeling) : Ending → Ending
  | .failed e => .failed (e.relabel f)
  | .finished => .finished
  | .unflushed reason => .unflushed reason
  | .suspended => .suspended

theorem Machine.Twin.flush {x : Pairing} {m m' : Machine} (h : m.Twin x m') :
    { m with sink := m.sink.flush.1 }.Twin x { m' with sink := m'.sink.flush.1 } :=
  { h with sink := h.sink.flush.1 }

theorem Machine.Twin.abandon {x : Pairing} {m m' : Machine} (h : m.Twin x m') :
    m.abandon.Twin x m'.abandon :=
  { h with frame := rfl, depth := rfl, sink := h.sink.flush.1 }

/-- Programs with new labels run alike on twins. -/
theorem Machine.twin_interpret {x : Pairing} (steps : Nat) (body : List Stmt)
    {m m' : Machine} (hm : m.Twin x m') :
    (interpret steps (Stmt.relabelAll x.labels body) m').1 = (interpret steps body m).1.relabel x.labels ∧
      (interpret steps body m).2.Twin x (interpret steps (Stmt.relabelAll x.labels body) m').2 := by
  induction body generalizing m m' with
  | nil =>
    obtain ⟨-, hrefusal⟩ := hm.sink.flush
    have hnext := hm.flush
    rw [Stmt.relabelAll, interpret, interpret]
    rcases hflush : m.sink.flush with ⟨sink, refusal⟩
    rcases hflush' : m'.sink.flush with ⟨sink', refusal'⟩
    rw [hflush, hflush'] at hrefusal hnext
    cases refusal with
    | none =>
      cases hrefusal
      exact ⟨rfl, hnext⟩
    | some reason =>
      cases hrefusal
      exact ⟨rfl, hnext⟩
  | cons s rest ih =>
    have hs := (twin_perform x steps).execute s m m' hm
    rw [Stmt.relabelAll, interpret, interpret]
    unfold Evaluation.execute at hs
    cases hrm : perform steps (.execute s) m <;> cases hrm' : perform steps (.execute (s.relabel x.labels)) m' <;>
      rw [hrm, hrm'] at hs
    case done.stopped => exact hs.elim
    case stopped.done => exact hs.elim
    case done.done => exact ih hs.2
    case stopped.stopped signal n signal' n' =>
      obtain ⟨rfl, hn⟩ := hs
      cases signal with
      | failed e => exact ⟨rfl, hn.abandon⟩
      | returned value => exact ih hn
      | broke => exact ih hn
      | suspended => exact ⟨rfl, hn⟩

end Treewalk
