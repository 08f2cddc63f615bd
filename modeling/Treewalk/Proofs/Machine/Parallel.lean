import Treewalk.Machine.Evaluation
import Treewalk.Proofs.Heap.Parallel
import Treewalk.Proofs.Machine.Conduct

/-!
Running goes by what references find and not by the shape of the chains in which they find it. From machines with heaps
alike, whose current chains lie side by side in layers, a task and its counterpart come to the same values, texts and
signals, on machines that are alike again.
-/

namespace Treewalk

/-- Two machines with heaps alike, which stand in chains side by side and have all else in common but their tables. -/
structure Machine.Parallel (x : Parting) (links : List Link) (layers : Layers) (m m' : Machine) : Prop where
  heap : m.heap.Alike x links m'.heap
  frame : Aligned x links layers m.frame m'.frame
  tables : m.distances = x.table ∧ m'.distances = x.table'
  depth : m'.depth = m.depth
  sink : m'.sink = m.sink
  input : m'.input = m.input
  clock : m'.clock = m.clock
  host : m'.host = m.host
  notices : m'.notices = m.notices

/-- Two outcomes with related results, or with the same signal, on machines alike, where frames may have been added. -/
def Outcome.Parallel (x : Parting) (links : List Link) (layers : Layers) {α β : Type} (V : List Link → α → β → Prop) :
    Outcome α → Outcome β → Prop
  | .done a m, .done b m' => ∃ more, links ⊆ more ∧ V more a b ∧ m.Parallel x more layers m'
  | .stopped s m, .stopped s' m' => s' = s ∧ ∃ more, links ⊆ more ∧ m.Parallel x more layers m'
  | _, _ => False

/-- Two runs that come to the same from machines alike, also when frames were added before. -/
def Run.Parallel (x : Parting) (links : List Link) (layers : Layers) {α β : Type} (V : List Link → α → β → Prop)
    (r : Run α) (r' : Run β) : Prop :=
  ∀ more m m', links ⊆ more → Machine.Parallel x more layers m m' → (r m).Parallel x more layers V (r' m')

/-- Runs in a new frame inside the current one, as a block does. -/
def Run.inScope {α : Type} (r : Run α) : Run α := do
  let frame ← look (·.frame)
  let inner ← onHeap (·.addChild frame)
  inFrame inner r

/-- The results are the same. -/
abbrev Same {α : Type} : List Link → α → α → Prop := fun _ => Eq

variable {x : Parting} {links more : List Link} {layers : Layers}

/-- Either both runs end with related results, or both stop with one signal. -/
theorem Outcome.Parallel.cases {α β : Type} {V : List Link → α → β → Prop} {o : Outcome α} {o' : Outcome β}
    (h : o.Parallel x links layers V o') :
    (∃ a b m m' more, o = .done a m ∧ o' = .done b m' ∧ links ⊆ more ∧ V more a b ∧ m.Parallel x more layers m') ∨
      ∃ s m m' more, o = .stopped s m ∧ o' = .stopped s m' ∧ links ⊆ more ∧ m.Parallel x more layers m' := by
  match o, o', h with
  | .done a m, .done b m', ⟨more, hmore, hv, hm⟩ => exact .inl ⟨a, b, m, m', more, rfl, rfl, hmore, hv, hm⟩
  | .stopped s m, .stopped _ m', ⟨rfl, more, hmore, hm⟩ => exact .inr ⟨_, m, m', more, rfl, rfl, hmore, hm⟩

theorem Outcome.Parallel.weaken {α β : Type} {V : List Link → α → β → Prop} {o : Outcome α} {o' : Outcome β}
    (h : o.Parallel x more layers V o') (hsub : links ⊆ more) : o.Parallel x links layers V o' := by
  match o, o', h with
  | .done _ _, .done _ _, ⟨most, hmost, hv, hm⟩ => exact ⟨most, List.Subset.trans hsub hmost, hv, hm⟩
  | .stopped _ _, .stopped _ _, ⟨hs, most, hmost, hm⟩ => exact ⟨hs, most, List.Subset.trans hsub hmost, hm⟩

/-- Both machines may be brought to frames whose chains lie side by side. -/
theorem Outcome.Parallel.inFrame {α β : Type} {V : List Link → α → β → Prop} {o : Outcome α} {o' : Outcome β}
    {inner : Layers} (h : o.Parallel x links inner V o') {f f' : FrameId} (hf : Aligned x links layers f f') :
    (o.onMachine (.inFrame f)).Parallel x links layers V (o'.onMachine (.inFrame f')) := by
  match o, o', h with
  | .done _ _, .done _ _, ⟨most, hmost, hv, hm⟩ => exact ⟨most, hmost, hv, { hm with frame := hf.mono hmost }⟩
  | .stopped _ _, .stopped _ _, ⟨hs, most, hmost, hm⟩ => exact ⟨hs, most, hmost, { hm with frame := hf.mono hmost }⟩

/-! ### Elementary runs -/

namespace Run.Parallel

variable {α β γ δ : Type} {V : List Link → α → β → Prop} {W : List Link → γ → δ → Prop}

theorem mono {r : Run α} {r' : Run β} (h : Parallel x links layers V r r') (hsub : links ⊆ more) :
    Parallel x more layers V r r' := fun _ m m' hmore hm => h _ m m' (List.Subset.trans hsub hmore) hm

/-- Machines alike, and related results on them, from where no frame is added. -/
theorem done_self {a : α} {b : β} {m m' : Machine} (hv : V links a b) (hm : m.Parallel x links layers m') :
    (Outcome.done a m).Parallel x links layers V (.done b m') := ⟨links, List.Subset.refl _, hv, hm⟩

theorem stopped_self {s : Signal} {m m' : Machine} (hm : m.Parallel x links layers m') :
    (Outcome.stopped s m).Parallel x links layers V (.stopped s m') := ⟨rfl, links, List.Subset.refl _, hm⟩

theorem pure {a : α} {b : β} (h : ∀ more, links ⊆ more → V more a b) :
    Parallel x links layers V (Pure.pure a) (Pure.pure b) := fun more _ _ hsub hm => done_self (h more hsub) hm

theorem same (a : α) : Parallel x links layers Same (Pure.pure a) (Pure.pure a) := pure fun _ _ => rfl

theorem bind {r : Run α} {r' : Run β} {k : α → Run γ} {k' : β → Run δ} (h : Parallel x links layers V r r')
    (hk : ∀ more, links ⊆ more → ∀ a b, V more a b → Parallel x more layers W (k a) (k' b)) :
    Parallel x links layers W (r >>= k) (r' >>= k') := by
  intro more m m' hsub hm
  obtain ⟨a, b, n, n', most, hr, hr', hmost, hv, hn⟩ | ⟨s, n, n', most, hr, hr', hmost, hn⟩ :=
    (h more m m' hsub hm).cases
  · rw [bind_of_done hr, bind_of_done hr']
    exact (hk most (List.Subset.trans hsub hmost) a b hv most n n' (List.Subset.refl _) hn).weaken hmost
  · rw [bind_of_stopped hr, bind_of_stopped hr']
    exact ⟨rfl, most, hmost, hn⟩

/-- A run that goes on with the same result on both sides. -/
theorem bindSame {r r' : Run α} {k : α → Run γ} {k' : α → Run δ} (h : Parallel x links layers Same r r')
    (hk : ∀ more, links ⊆ more → ∀ a, Parallel x more layers W (k a) (k' a)) :
    Parallel x links layers W (r >>= k) (r' >>= k') :=
  h.bind fun more hsub a _ hab => hab ▸ hk more hsub a

theorem mapSame {r r' : Run α} (h : Parallel x links layers Same r r') (k : α → γ) :
    Parallel x links layers Same (k <$> r) (k <$> r') := h.bindSame fun _ _ a => same (k a)

theorem discard {r r' : Run α} (h : Parallel x links layers Same r r') :
    Parallel x links layers Same (Functor.discard r) (Functor.discard r') := h.mapSame _

theorem stop (s : Signal) : Parallel x links layers V (Run.stop s) (Run.stop s) := fun _ _ _ _ hm => stopped_self hm

theorem fail (line : Nat) (fault : RuntimeFault) : Parallel x links layers V (Run.fail line fault) (Run.fail line fault) :=
  stop _

theorem look {k : Machine → α} {k' : Machine → β}
    (h : ∀ more m m', links ⊆ more → m.Parallel x more layers m' → V more (k m) (k' m')) :
    Parallel x links layers V (Run.look k) (Run.look k') := fun more m m' hsub hm => done_self (h more m m' hsub hm) hm

/-- Both machines tell the frame in which they stand. -/
theorem lookFrame : Parallel x links layers (fun more f f' => Aligned x more layers f f') (Run.look (·.frame))
    (Run.look (·.frame)) := look fun _ _ _ _ hm => hm.frame

theorem change {k k' : Machine → Machine}
    (h : ∀ more m m', links ⊆ more → m.Parallel x more layers m' → (k m).Parallel x more layers (k' m')) :
    Parallel x links layers Same (Run.change k) (Run.change k') :=
  fun more m m' hsub hm => done_self rfl (h more m m' hsub hm)

theorem onHeap {k : Heap → α × Heap} {k' : Heap → β × Heap}
    (h : ∀ more heap heap', links ⊆ more → heap.Alike x more heap' →
      ∃ most, more ⊆ most ∧ V most (k heap).1 (k' heap').1 ∧ (k heap).2.Alike x most (k' heap').2) :
    Parallel x links layers V (Run.onHeap k) (Run.onHeap k') := by
  intro more m m' hsub hm
  obtain ⟨most, hmost, hv, hheap⟩ := h more m.heap m'.heap hsub hm.heap
  exact ⟨most, hmost, hv, { hm with heap := hheap, frame := hm.frame.mono hmost }⟩

/-- A change of the heap that adds no frame. -/
theorem onHeapSame {k k' : Heap → α × Heap}
    (h : ∀ more heap heap', links ⊆ more → heap.Alike x more heap' →
      (k' heap').1 = (k heap).1 ∧ (k heap).2.Alike x more (k' heap').2) :
    Parallel x links layers Same (Run.onHeap k) (Run.onHeap k') :=
  onHeap fun more heap heap' hsub hheap =>
    ⟨more, List.Subset.refl _, (h more heap heap' hsub hheap).1.symm, (h more heap heap' hsub hheap).2⟩

/-- A new frame in each heap, with the same bindings, inside frames that lie side by side. -/
theorem addFrame (bindings : Table Value) {outer : Layers} {p p' : FrameId} (hp : Aligned x links outer p p') :
    Parallel x links layers (fun more f f' => Aligned x more (.shared :: outer) f f')
      (Run.onHeap (·.addFrame ⟨bindings, some p⟩)) (Run.onHeap (·.addFrame ⟨bindings, some p'⟩)) := by
  refine onHeap fun more heap heap' hsub hheap => ?_
  obtain ⟨most, hmost, hadded, hnew⟩ := hheap.addFrame bindings (hp.mono hsub)
  exact ⟨most, hmost, hnew, hadded⟩

theorem orFail {value value' : Option α} (h : value' = value) (line : Nat) (fault : RuntimeFault) :
    Parallel x links layers Same (Run.orFail value line fault) (Run.orFail value' line fault) := by
  subst h
  cases value' with
  | some a => exact same a
  | none => exact fail line fault

theorem lift (result : Except RuntimeFault α) (line : Nat) :
    Parallel x links layers Same (Run.lift result line) (Run.lift result line) := by
  cases result with
  | ok a => exact same a
  | error fault => exact fail line fault

theorem inFrame {inner : Layers} {r : Run α} {r' : Run β} (h : Parallel x links inner V r r') {f f' : FrameId}
    (hf : Aligned x links inner f f') : Parallel x links layers V (Run.inFrame f r) (Run.inFrame f' r') := by
  intro more m m' hsub hm
  rw [Run.inFrame_eq, Run.inFrame_eq]
  exact (h more { m with frame := f } { m' with frame := f' } hsub { hm with frame := hf.mono hsub }).inFrame hm.frame

theorem inScope {r : Run α} {r' : Run β} (h : Parallel x links (.shared :: layers) V r r') :
    Parallel x links layers V (Run.inScope r) (Run.inScope r') :=
  lookFrame.bind fun _ hsub _ _ hf => (addFrame {} hf).bind fun _ hmore _ _ hinner =>
    (h.mono (List.Subset.trans hsub hmore)).inFrame hinner

theorem nested {r r' : Run α} (h : Parallel x links layers Same r r') (line : Nat) :
    Parallel x links layers Same (Run.nested line r) (Run.nested line r') := by
  intro more m m' hsub hm
  have deep : ∀ {most : List Link} {n n' : Machine}, n.Parallel x most layers n' → ∀ change : Nat → Nat,
      { n with depth := change n.depth }.Parallel x most layers { n' with depth := change n'.depth } := fun hn change =>
    { hn with depth := congrArg change hn.depth }
  have hr := h more { m with depth := m.depth + 1 } { m' with depth := m'.depth + 1 } hsub (deep hm (· + 1))
  unfold Run.nested
  rw [hm.depth] at hr ⊢
  split
  · exact stopped_self hm
  · obtain ⟨a, b, n, n', most, hn, hn', hmost, hv, hnn⟩ | ⟨s, n, n', most, hn, hn', hmost, hnn⟩ := hr.cases
    · rw [hn, hn']
      exact ⟨most, hmost, hv, deep hnn (· - 1)⟩
    · rw [hn, hn']
      exact ⟨rfl, most, hmost, deep hnn (· - 1)⟩

theorem repeatWhile {test test' : Run Bool} {body body' : Run Unit} (ht : Parallel x links layers Same test test')
    (hb : Parallel x links layers Same body body') (rounds : Nat) :
    Parallel x links layers Same (Run.repeatWhile test body rounds) (Run.repeatWhile test' body' rounds) := by
  induction rounds with
  | zero => exact stop .suspended
  | succ rounds ih =>
    intro more m m' hsub hm
    unfold Run.repeatWhile
    obtain ⟨again, _, n, n', most, htn, htn', hmost, rfl, hn⟩ | ⟨s, n, n', most, htn, htn', hmost, hn⟩ :=
      (ht more m m' hsub hm).cases
    · rw [htn, htn']
      cases again with
      | false => exact ⟨most, hmost, rfl, hn⟩
      | true =>
        have hsub' := List.Subset.trans hsub hmost
        dsimp only
        obtain ⟨_, _, q, q', last, hbq, hbq', hlast, -, hq⟩ | ⟨s, q, q', last, hbq, hbq', hlast, hq⟩ :=
          (hb most n n' hsub' hn).cases
        · rw [hbq, hbq']
          exact (ih last q q' (List.Subset.trans hsub' hlast) hq).weaken (List.Subset.trans hmost hlast)
        · rw [hbq, hbq']
          have hall := List.Subset.trans hmost hlast
          cases s with
          | broke => exact ⟨last, hall, rfl, hq⟩
          | failed e => exact ⟨rfl, last, hall, hq⟩
          | returned value => exact ⟨rfl, last, hall, hq⟩
          | suspended => exact ⟨rfl, last, hall, hq⟩
    · rw [htn, htn']
      exact ⟨rfl, most, hmost, hn⟩

end Run.Parallel

/-! ### References and bindings -/

namespace Machine.Parallel

variable {m m' : Machine}

theorem target? (h : m.Parallel x links layers m') {id id' : NodeId} (hid : Refers x.table x.table' layers id id')
    (name : String) : Option.Rel (Opposite x links) (m.target? id name) (m'.target? id' name) := by
  unfold Machine.target?
  rw [h.tables.1, h.tables.2]
  obtain ⟨hn, hn'⟩ | ⟨n, n', hn, hn', halong⟩ := hid.cases
  · rw [hn, hn']
    dsimp only
    rw [h.heap.frames.owner?_globalFrame]
    cases ho : m.heap.owner? globalFrame name with
    | none => exact .none
    | some f =>
      rw [Heap.owner?_globalFrame (Nat.lt_of_lt_of_le h.heap.frames.outermost.1.index_lt h.heap.frames.present.1)
        h.heap.frames.outermost.2] at ho
      split at ho
      · cases ho
        exact .some h.heap.frames.globalFrame_opposite
      · cases ho
  · rw [hn, hn']
    exact h.heap.frames.ancestor? h.frame halong

theorem lookUp? (h : m.Parallel x links layers m') {id id' : NodeId} (hid : Refers x.table x.table' layers id id')
    (name : String) : m'.lookUp? id' name = m.lookUp? id name := by
  unfold Machine.lookUp?
  obtain ⟨hf, hf'⟩ | ⟨f, f', hf, hf', ho⟩ := rel_cases (h.target? hid name)
  · rw [hf, hf']
    rfl
  · rw [hf, hf']
    exact h.heap.frames.getOwn? ho name

theorem define (h : m.Parallel x links layers m') {f f' : FrameId} (ho : Opposite x links f f') (name : String)
    (value : Value) : (m.define f name value).Parallel x links layers (m'.define f' name value) :=
  { h with heap := h.heap.define ho name value }

end Machine.Parallel

namespace Run.Parallel

theorem lookUp {id id' : NodeId} (hid : Refers x.table x.table' layers id id') (name : Token) :
    Parallel x links layers Same (Run.lookUp id name) (Run.lookUp id' name) := by
  intro more m m' _ hm
  unfold Run.lookUp
  rw [hm.lookUp? hid]
  cases m.lookUp? id name.lexeme with
  | some value => exact done_self rfl hm
  | none => exact stopped_self hm

theorem assign {id id' : NodeId} (hid : Refers x.table x.table' layers id id') (name : Token) (value : Value) :
    Parallel x links layers Same (Run.assign id name value) (Run.assign id' name value) := by
  intro more m m' _ hm
  unfold Run.assign
  obtain ⟨hf, hf'⟩ | ⟨f, f', hf, hf', ho⟩ := rel_cases (hm.target? hid name.lexeme)
  · rw [hf, hf']
    exact stopped_self hm
  · rw [hf, hf']
    exact done_self rfl (hm.define ho name.lexeme value)

/-- Names are bound in the current frames only where these stand for each other. -/
theorem define (level : layers.Level) (name : String) (value : Value) :
    Parallel x links layers Same (Run.define name value) (Run.define name value) :=
  change fun _ _ _ _ hm => hm.define (hm.frame.opposite level) name value

theorem makeFunction {routine routine' : Routine} (h : Routine.Matches x.table x.table' layers routine routine') :
    Parallel x links layers Same (Run.makeFunction routine) (Run.makeFunction routine') := by
  refine lookFrame.bind fun more hsub f f' hf => ?_
  refine (onHeapSame fun most heap heap' hmost hheap => ?_).bindSame fun _ _ id => same (Value.closure id)
  exact hheap.addClosure ⟨rfl, layers, hf.mono hmost, nofun, h⟩

theorem property (id : InstanceId) (name : String) (line : Nat) :
    Parallel x links layers Same (Run.property id name line) (Run.property id name line) := by
  refine (look (V := fun more => Option.Rel (Heap.Property.Alike x more)) fun _ _ _ _ hm => hm.heap.property? id name).bind
    fun more hsub a b hab => ?_
  cases hab with
  | none => exact fail line _
  | some hp =>
    cases hp with
    | field => exact same _
    | method hf =>
      refine onHeap fun most heap heap' hmost hheap => ?_
      obtain ⟨last, hlast, hvalue, hbound⟩ := hheap.bindValue (hf.mono hmost) id
      exact ⟨last, hlast, hvalue.symm, hbound⟩

theorem setField (id : InstanceId) (name : String) (value : Value) :
    Parallel x links layers Same (Run.setField id name value) (Run.setField id name value) :=
  onHeapSame fun _ _ _ _ hheap => ⟨rfl, hheap.setField id name value⟩

/-! ### Channels and native functions -/

theorem printLine (text : String) (line : Nat) :
    Parallel x links layers Same (Run.printLine text line) (Run.printLine text line) := by
  intro more m m' _ hm
  have hm' : { m with sink := (m.sink.writeLine text).1 }.Parallel x more layers
      { m' with sink := (m.sink.writeLine text).1 } := { hm with sink := rfl }
  unfold Run.printLine
  rw [hm.sink]
  dsimp only
  cases (m.sink.writeLine text).2 with
  | none => exact done_self rfl hm'
  | some reason => exact stopped_self hm'

theorem readClock : Parallel x links layers Same Run.readClock Run.readClock := by
  intro more m m' _ hm
  unfold Run.readClock
  rw [hm.clock]
  exact done_self rfl { hm with clock := rfl }

theorem readWord (line : Nat) : Parallel x links layers Same (Run.readWord line) (Run.readWord line) := by
  intro more m m' _ hm
  have hm' : { m with input := m.input.takeWord.2 }.Parallel x more layers { m' with input := m.input.takeWord.2 } :=
    { hm with input := rfl }
  unfold Run.readWord
  rw [hm.input]
  dsimp only
  cases m.input.takeWord.1 with
  | error reason => exact stopped_self hm'
  | ok word =>
    cases word with
    | some text => exact done_self rfl hm'
    | none => exact done_self rfl hm'

theorem ofNative (result : Except NativeFault Value) (line : Nat) :
    Parallel x links layers Same (Run.ofNative result line) (Run.ofNative result line) := by
  cases result with
  | ok value => exact same value
  | error fault => exact fail line _

theorem callHost (index : Nat) (arguments : List Value) (line : Nat) :
    Parallel x links layers Same (Run.callHost index arguments line) (Run.callHost index arguments line) := by
  intro more m m' _ hm
  unfold Run.callHost
  rw [hm.host]
  cases m.host[index]? with
  | none => exact done_self rfl hm
  | some function =>
    dsimp only
    cases function arguments with
    | ok literal => exact done_self rfl hm
    | error message => exact stopped_self hm

theorem callPrimitive (primitive : Primitive) (arguments : List Value) (line : Nat) :
    Parallel x links layers Same (Run.callPrimitive primitive arguments line)
      (Run.callPrimitive primitive arguments line) := by
  cases primitive with
  | clock => exact readClock
  | readWord => exact readWord line
  | host index => exact callHost index arguments line
  | _ => exact ofNative _ line

theorem useLibrary (path : Token) : Parallel x links layers Same (Run.useLibrary path) (Run.useLibrary path) := by
  refine change fun more m m' _ hm => ?_
  dsimp only
  split
  · exact hm.define hm.heap.frames.globalFrame_opposite _ _
  · exact { hm with notices := congrArg (· ++ _) hm.notices }

end Run.Parallel

/-! ### Expressions, statements and calls -/

/-- Two ways to do tasks, of which the second one does with counterparts what the first one does. -/
structure Performer.Parallel (x : Parting) (p p' : Performer) : Prop where
  evaluate : ∀ {links layers e e'}, Expr.Matches x.table x.table' layers e e' →
    Run.Parallel x links layers Same (Evaluation.evaluate p e) (Evaluation.evaluate p' e')
  execute : ∀ {links layers s s'}, Stmt.Matches x.table x.table' layers s s' →
    Run.Parallel x links layers Same (Evaluation.execute p s) (Evaluation.execute p' s')
  invoke : ∀ {links layers} callee arguments line, Run.Parallel x links layers Same
    (p (.invoke callee arguments line) : Run Value) (p' (.invoke callee arguments line) : Run Value)

namespace Evaluation

variable {p p' : Performer} (hp : Performer.Parallel x p p')
include hp

theorem parallel_evaluateAll {es es' : List Expr} (h : Expr.AllMatch x.table x.table' layers es es') :
    Run.Parallel x links layers Same (evaluateAll p es) (evaluateAll p' es') := by
  induction es generalizing es' links with
  | nil =>
    cases h
    exact .same []
  | cons e rest ih =>
    cases h with
    | cons he hrest =>
      exact (hp.evaluate he).bindSame fun _ _ value => (ih hrest).bindSame fun _ _ values => .same (value :: values)

theorem parallel_executeAll {body body' : List Stmt} (h : Stmt.AllMatch x.table x.table' layers body body') :
    Run.Parallel x links layers Same (executeAll p body) (executeAll p' body') := by
  induction body generalizing body' links with
  | nil =>
    cases h
    exact .same ()
  | cons s rest ih =>
    cases h with
    | @cons _ _ s' _ rest' hs hrest =>
      intro more m m' hsub hm
      unfold executeAll
      obtain ⟨_, _, n, n', most, hr, hr', hmost, -, hn⟩ | ⟨_, n, n', most, hr, hr', hmost, hn⟩ :=
        (hp.execute hs more m m' hsub hm).cases
      · rw [hr, hr']
        exact (ih hrest most n n' (List.Subset.refl _) hn).weaken hmost
      · rw [hr, hr']
        exact ⟨rfl, most, hmost, hn⟩

theorem parallel_evaluation {e e' : Expr} (h : Expr.Matches x.table x.table' layers e e') :
    Run.Parallel x links layers Same (evaluation p e) (evaluation p' e') := by
  cases h with
  | literal => exact .same _
  | array => exact .same _
  | grouping h => exact hp.evaluate h
  | @unary _ operator _ _ h => exact (hp.evaluate h).bindSame fun _ _ value => .lift _ operator.line
  | @binary _ _ _ operator _ _ h k =>
    exact (hp.evaluate h).bindSame fun _ _ a => (hp.evaluate k).bindSame fun _ _ b => .lift _ operator.line
  | logical h k =>
    refine (hp.evaluate h).bindSame fun _ _ a => ?_
    split
    · exact .same a
    · exact hp.evaluate k
  | ternary h k l =>
    refine (hp.evaluate h).bindSame fun _ _ c => ?_
    split
    · exact hp.evaluate k
    · exact hp.evaluate l
  | @var _ _ _ name h => exact .lookUp h name
  | @this _ _ _ keyword h => exact .lookUp h keyword
  | @global _ name =>
    refine (Run.Parallel.look (V := Same) fun _ _ _ _ hm => ?_).bindSame fun _ _ value? => .orFail rfl name.line _
    exact (hm.heap.frames.getOwn? hm.heap.frames.globalFrame_opposite name.lexeme).symm
  | @assign _ _ _ name _ _ h k =>
    exact (hp.evaluate k).bindSame fun _ _ v => (Run.Parallel.assign h name v).bindSame fun _ _ _ => .same v
  | @call _ _ _ paren _ _ h k =>
    exact (hp.evaluate h).bindSame fun _ _ c => (parallel_evaluateAll hp k).bindSame fun _ _ values =>
      hp.invoke c values paren.line
  | lambda h => exact .makeFunction h
  | @get _ _ _ name h =>
    refine (hp.evaluate h).bindSame fun _ _ v => ?_
    cases v with
    | object id => exact .property id name.lexeme name.line
    | _ => exact .fail name.line _
  | @set _ _ _ name _ _ h k =>
    refine (hp.evaluate h).bindSame fun _ _ v => ?_
    cases v with
    | object id =>
      exact (hp.evaluate k).bindSame fun _ _ v =>
        (Run.Parallel.setField id name.lexeme v).bindSame fun _ _ _ => .same v
    | _ => exact .fail name.line _
  | @subscript _ _ _ name _ _ h k =>
    exact (Run.Parallel.lookUp h name).bindSame fun _ _ a => (hp.evaluate k).bindSame fun _ _ b => .lift _ name.line

omit hp in
theorem methodTable_alike {frame frame' : FrameId} (hframe : Aligned x links layers frame frame')
    {methods methods' : List Routine} (h : Routine.AllMatch x.table x.table' (.shared :: layers) methods methods') :
    (methodTable frame methods).Alike (Closure.Alike x links [.shared]) (methodTable frame' methods') := by
  -- The two lists of entries are the sides of one list of pairs.
  have pairs : ∀ {methods methods' : List Routine},
      Routine.AllMatch x.table x.table' (.shared :: layers) methods methods' →
      ∃ entries : List (String × Closure × Closure),
        methods.map (fun r => (r.name.lexeme, (⟨r, frame, r.name.lexeme == initializerName⟩ : Closure)))
          = entries.map (Table.mapEntry (·.1)) ∧
        methods'.map (fun r => (r.name.lexeme, (⟨r, frame', r.name.lexeme == initializerName⟩ : Closure)))
          = entries.map (Table.mapEntry (·.2)) ∧
        ∀ entry ∈ entries, entry.2.1.Alike x links [.shared] entry.2.2 := by
    intro methods
    induction methods with
    | nil =>
      intro methods' h
      cases h
      exact ⟨[], rfl, rfl, nofun⟩
    | cons r rest ih =>
      intro methods' h
      cases h with
      | @cons _ _ r' _ rest' hr hrest =>
        obtain ⟨entries, heq, heq', hall⟩ := ih hrest
        refine ⟨(r.name.lexeme, ⟨r, frame, r.name.lexeme == initializerName⟩,
          ⟨r', frame', r'.name.lexeme == initializerName⟩) :: entries, ?_, ?_, ?_⟩
        · rw [List.map_cons, List.map_cons, heq]
          rfl
        · rw [List.map_cons, List.map_cons, heq', hr.name_eq]
          rfl
        · intro entry hentry
          rcases List.mem_cons.mp hentry with rfl | hentry
          · exact ⟨by rw [hr.name_eq], layers, hframe, fun _ => trivial, hr⟩
          · exact hall entry hentry
  obtain ⟨entries, heq, heq', hall⟩ := pairs h
  unfold methodTable
  rw [heq, heq']
  exact .putAll hall

omit hp in
/-- The declaration of a class behind its superclass. -/
theorem parallel_classDeclaration {superclass superclass' : Option Expr} (name : Token)
    (hparent : Run.Parallel x links layers Same (superclassOf p name superclass) (superclassOf p' name superclass'))
    (level : layers.Level) {methods methods' : List Routine}
    (h : Routine.AllMatch x.table x.table' (.shared :: layers) methods methods') :
    Run.Parallel x links layers Same (classDeclaration p name superclass methods)
      (classDeclaration p' name superclass' methods') := by
  refine hparent.bindSame fun _ _ parent => Run.Parallel.lookFrame.bind fun _ _ f f' hf => ?_
  refine (Run.Parallel.onHeapSame fun more heap heap' hsub hheap => ?_).bindSame fun _ _ id =>
    .define level name.lexeme (.classValue id)
  exact hheap.addClass ⟨rfl, rfl, methodTable_alike (hf.mono hsub) h⟩

theorem parallel_superclassOf (name : Token) {e e' : Expr} (h : Expr.Matches x.table x.table' layers e e') :
    Run.Parallel x links layers Same (superclassOf p name (some e)) (superclassOf p' name (some e')) := by
  refine (hp.evaluate h).bindSame fun _ _ v => ?_
  cases v with
  | classValue id => exact .same (some id)
  | _ =>
    dsimp only
    rw [h.line?_eq]
    exact .fail _ _

theorem parallel_block {body body' : List Stmt} (h : Stmt.AllMatch x.table x.table' (.shared :: layers) body body') :
    Run.Parallel x links layers Same (block p body) (block p' body') :=
  (parallel_executeAll hp h).inScope

theorem parallel_execution (rounds : Nat) {s s' : Stmt} (h : Stmt.Matches x.table x.table' layers s s') :
    Run.Parallel x links layers Same (execution p rounds s) (execution p' rounds s') := by
  cases h with
  | expression h => exact (hp.evaluate h).discard
  | @print _ keyword _ _ h =>
    refine (parallel_evaluateAll hp h).bindSame fun _ _ values => ?_
    refine (Run.Parallel.look (V := Same) fun _ _ _ _ hm => ?_).bindSame fun _ _ text => .printLine text keyword.line
    rw [Value.texts_alike hm.heap]
  | @varUnset _ name level => exact .define level name.lexeme .nil
  | @varSet _ name _ _ level h => exact (hp.evaluate h).bindSame fun _ _ v => .define level name.lexeme v
  | block h => exact parallel_block hp h
  | ifOnly h k =>
    refine (hp.evaluate h).bindSame fun _ _ c => ?_
    split
    · exact hp.execute k
    · exact .same ()
  | ifElse h k l =>
    refine (hp.evaluate h).bindSame fun _ _ c => ?_
    split
    · exact hp.execute k
    · exact hp.execute l
  | whileLoop h k => exact .repeatWhile ((hp.evaluate h).mapSame _) (hp.execute k) rounds
  | function level h =>
    refine (Run.Parallel.makeFunction h).bindSame fun _ _ v => ?_
    rw [h.name_eq]
    exact .define level _ v
  | breakLoop => exact .stop .broke
  | returnNothing => exact .stop (.returned .nil)
  | returnValue h => exact (hp.evaluate h).bindSame fun _ _ v => .stop (.returned v)
  | @classOnly _ name _ _ level h => exact parallel_classDeclaration name (.same none) level h
  | @classBelow _ name _ _ _ _ level h k =>
    exact parallel_classDeclaration name (parallel_superclassOf hp name h) level k
  | @useLibrary _ _ path => exact .useLibrary path

omit hp in
/-- Bodies that come to the same give the same result of a call. -/
theorem parallel_result {f f' : Closure} (hf : f.Alike x links [] f') {body body' : Run Unit}
    (hb : Run.Parallel x links layers Same body body') :
    Run.Parallel x links layers Same (result f body) (result f' body') := by
  obtain ⟨hinit, own, hframe, hlevel, hroutine⟩ := hf
  have hreceiver : f.isInitializer = true → Run.Parallel x links layers Same (receiver f) (receiver f') := by
    intro h
    unfold receiver
    rw [hroutine.name_eq]
    refine (Run.Parallel.look (V := Same) fun more m m' hsub hm => ?_).bindSame fun _ _ value? => .orFail rfl _ _
    exact (hm.heap.frames.getOwn? ((hframe.mono hsub).opposite (hlevel h)) receiverName).symm
  intro more m m' hsub hm
  unfold result
  obtain ⟨_, _, n, n', most, hr, hr', hmost, -, hn⟩ | ⟨s, n, n', most, hr, hr', hmost, hn⟩ :=
    (hb more m m' hsub hm).cases
  · rw [hr, hr']
    dsimp only
    rw [hinit]
    by_cases h : f.isInitializer = true
    · rw [if_pos h, if_pos h]
      exact (hreceiver h most n n' (List.Subset.trans hsub hmost) hn).weaken hmost
    · rw [if_neg h, if_neg h]
      exact ⟨most, hmost, rfl, hn⟩
  · rw [hr, hr']
    cases s with
    | returned value => exact ⟨most, hmost, rfl, hn⟩
    | failed e => exact ⟨rfl, most, hmost, hn⟩
    | broke => exact ⟨rfl, most, hmost, hn⟩
    | suspended => exact ⟨rfl, most, hmost, hn⟩

theorem parallel_apply {f f' : Closure} (hf : f.Alike x links [] f') (arguments : List Value) :
    Run.Parallel x links layers Same (apply p f arguments) (apply p' f' arguments) := by
  obtain ⟨hinit, own, hframe, hlevel, hroutine⟩ := hf
  unfold apply
  rw [hroutine.params_eq]
  refine (Run.Parallel.addFrame _ hframe).bind fun more hsub inner inner' hinner => ?_
  exact parallel_result ⟨hinit, own, hframe.mono hsub, hlevel, hroutine⟩
    ((parallel_executeAll hp hroutine.body).inFrame hinner)

theorem parallel_instantiate (classId : ClassId) (arguments : List Value) (line : Nat) :
    Run.Parallel x links layers Same (instantiate p classId arguments line) (instantiate p' classId arguments line) := by
  refine (Run.Parallel.onHeapSame fun _ _ _ _ hheap => hheap.addInstance _).bindSame fun _ _ id => ?_
  have finish : ∀ links, Run.Parallel x links layers Same (do
      Run.onHeap fun h => ((), h.copyLineage id classId)
      return Value.object id) (do
      Run.onHeap fun h => ((), h.copyLineage id classId)
      return Value.object id) := by
    intro links
    refine (Run.Parallel.onHeap (V := Same) fun more heap heap' _ hheap => ?_).bindSame fun _ _ _ => .same _
    obtain ⟨most, hmost, hcopied⟩ := hheap.copyLineage id classId
    exact ⟨most, hmost, rfl, hcopied⟩
  refine (Run.Parallel.look (V := fun more => Option.Rel (Closure.Alike x more [.shared])) fun _ _ _ _ hm =>
    hm.heap.findMethod? classId initializerName).bind fun more hsub method method' hmethod => ?_
  cases hmethod with
  | none => exact finish more
  | some hf =>
    refine (Run.Parallel.onHeap (V := fun most => Closure.Alike x most []) fun most heap heap' hmost hheap => ?_).bind
      fun most _ bound bound' hbound => ?_
    · obtain ⟨last, hlast, hadded, hnew⟩ := hheap.bind (hf.mono hmost) id
      exact ⟨last, hlast, hnew, hadded⟩
    · exact ((parallel_apply hp hbound arguments).nested line).discard.bindSame fun last _ _ => finish last

theorem parallel_invocation (callee : Value) (arguments : List Value) (line : Nat) :
    Run.Parallel x links layers Same (invocation p callee arguments line) (invocation p' callee arguments line) := by
  cases callee with
  | native native =>
    show Run.Parallel x links layers Same (if native.arity.accepts arguments.length then _ else _)
      (if native.arity.accepts arguments.length then _ else _)
    split
    · exact .callPrimitive native.primitive arguments line
    · exact .fail line _
  | closure id =>
    refine (Run.Parallel.look (V := fun more => Option.Rel (Closure.Alike x more [])) fun _ _ _ _ hm =>
      hm.heap.closure? id).bind fun more hsub c c' hc => ?_
    cases hc with
    | none => exact .fail line _
    | some hf =>
      dsimp only
      rw [hf.arity_eq]
      split
      · exact (parallel_apply hp hf arguments).nested line
      · exact .fail line _
  | classValue id =>
    refine (Run.Parallel.look (V := Same) fun _ _ _ _ hm => ?_).bindSame fun _ _ arity => ?_
    · exact (hm.heap.classArity id initializerName).symm
    · split
      · exact parallel_instantiate hp id arguments line
      · exact .fail line _
  | _ => exact .fail line _

theorem parallel_performOver (rounds : Nat) : Performer.Parallel x (performOver p rounds) (performOver p' rounds) where
  evaluate h := parallel_evaluation hp h
  execute h := parallel_execution hp rounds h
  invoke callee arguments line := parallel_invocation hp callee arguments line

end Evaluation

/-- With the same grant of steps, a task and its counterpart come to the same. -/
theorem parallel_perform (x : Parting) (steps : Nat) : Performer.Parallel x (perform steps) (perform steps) := by
  induction steps with
  | zero => exact ⟨fun _ => .stop .suspended, fun _ => .stop .suspended, fun _ _ _ => .stop .suspended⟩
  | succ steps ih => exact Evaluation.parallel_performOver ih steps

end Treewalk
