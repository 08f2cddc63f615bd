import Treewalk.Library.Registry
import Treewalk.Machine.Operator
import Treewalk.Scope.Resolver
import Treewalk.Value.Text

/-!
Running expressions, statements and calls. Each is written in terms of the running of its parts, which it gets as an
argument; `perform` ties them together with a grant of steps, which bounds their nesting and the rounds of each loop.
-/

namespace Treewalk

/-- What a machine can be asked to do. -/
inductive Task where
  | evaluate (e : Expr)
  | execute (s : Stmt)
  /-- A call of a value at a line. -/
  | invoke (callee : Value) (arguments : List Value) (line : Nat)

/-- The result of a task. -/
def Task.Result : Task → Type
  | evaluate _ => Value
  | execute _ => Unit
  | invoke _ _ _ => Value

/-- A way to do each task. -/
abbrev Performer : Type :=
  (task : Task) → Run task.Result

namespace Machine

/-- The frame that a reference means: the one at the recorded distance, or the outermost one if it binds the name. -/
def target? (m : Machine) (id : NodeId) (name : String) : Option FrameId :=
  match m.distances.find? id with
  | some distance => m.heap.ancestor? m.frame distance
  | none => m.heap.owner? globalFrame name

/-- What a reference is bound to in the frame that it means. -/
def lookUp? (m : Machine) (id : NodeId) (name : String) : Option Value :=
  (m.target? id name).bind fun frame => m.heap.getOwn? frame name

/-- Binds a name in a frame. -/
def define (m : Machine) (frame : FrameId) (name : String) (value : Value) : Machine :=
  { m with heap := m.heap.define frame name value }

end Machine

namespace Run

/-- The value of a reference. -/
def lookUp (id : NodeId) (name : Token) : Run Value :=
  fun m =>
    match m.lookUp? id name.lexeme with
    | some value => .done value m
    | none => fail name.line (.undefinedVariable name.lexeme) m

/-- Binds the name of a reference in the frame that it means. -/
def assign (id : NodeId) (name : Token) (value : Value) : Run Unit :=
  fun m =>
    match m.target? id name.lexeme with
    | some frame => .done () (m.define frame name.lexeme value)
    | none => fail name.line (.undefinedVariable name.lexeme) m

/-- Binds a name in the current frame. -/
def define (name : String) (value : Value) : Run Unit :=
  change fun m => m.define m.frame name value

/-- A function made in the current frame, as a value. -/
def makeFunction (routine : Routine) : Run Value := do
  let frame ← look (·.frame)
  let id ← onHeap (·.addClosure ⟨routine, frame, false⟩)
  return .closure id

/-- A property of an instance. A method is bound anew each time. -/
def property (id : InstanceId) (name : String) (line : Nat) : Run Value := do
  match ← look (·.heap.property? id name) with
  | some (.field value) => return value
  | some (.method method) => onHeap (·.bindValue method id)
  | none => fail line (.undefinedProperty name)

/-- Sets a field of an instance. -/
def setField (id : InstanceId) (name : String) (value : Value) : Run Unit :=
  onHeap fun h => ((), h.setField id name value)

/-- Prints a line. -/
def printLine (text : String) (line : Nat) : Run Unit :=
  fun m =>
    let (sink, refusal) := m.sink.writeLine text
    let m := { m with sink }
    match refusal with
    | none => .done () m
    | some reason => fail line (.unwritable reason) m

/-- Takes a reading of the clock. -/
def readClock : Run Value :=
  fun m =>
    let (time, clock) := m.clock.take
    .done (.number time) { m with clock }

/-- Takes a word from the input; there is no value if it has ended. -/
def readWord (line : Nat) : Run Value :=
  fun m =>
    let (word, input) := m.input.takeWord
    let m := { m with input }
    match word with
    | .ok (some text) => .done (.string text) m
    | .ok none => .done .nil m
    | .error reason => fail line (.native (.unreadable reason)) m

/-- The result of a native function, or its failure at a line. -/
def ofNative (result : Except NativeFault Value) (line : Nat) : Run Value :=
  match result with
  | .ok value => .pure value
  | .error fault => fail line (.native fault)

/-- Calls a function of the host. -/
def callHost (index : Nat) (arguments : List Value) (line : Nat) : Run Value :=
  fun m =>
    match m.host[index]? with
    | none => .done .nil m
    | some f =>
      match f arguments with
      | .ok literal => .done (.ofLiteral literal) m
      | .error message => fail line (.native (.host message)) m

/-- Calls a native function. -/
def callPrimitive (primitive : Primitive) (arguments : List Value) (line : Nat) : Run Value :=
  match primitive with
  | .clock => readClock
  | .max => ofNative (Native.extremum Native.larger "max" arguments) line
  | .min => ofNative (Native.extremum Native.smaller "min" arguments) line
  | .len => ofNative (Native.len arguments) line
  | .substr => ofNative (Native.substr arguments) line
  | .concat => ofNative (Native.concat arguments) line
  | .split => ofNative (Native.split arguments) line
  | .replace => ofNative (Native.replace arguments) line
  | .readWord => readWord line
  | .host index => callHost index arguments line

/-- Makes the function of a library global, or notes that there is none. -/
def useLibrary (path : Token) : Run Unit :=
  change fun m =>
    let p := LibraryPath.ofText path.lexeme
    match Library.lookup? p.namespaceText p.leaf with
    | some native => m.define globalFrame p.leaf (.native native)
    | none => { m with notices := m.notices ++ [⟨path.lexeme, path.line⟩] }

end Run

namespace Evaluation

open Run

variable (perform : Performer)

/-- The value of an expression. -/
@[inline] def evaluate (e : Expr) : Run Value :=
  perform (.evaluate e)

/-- Runs a statement. -/
@[inline] def execute (s : Stmt) : Run Unit :=
  perform (.execute s)

/-- The values of expressions, in their order. -/
def evaluateAll : List Expr → Run (List Value)
  | [] => pure []
  | e :: rest => do
    let value ← evaluate perform e
    let values ← evaluateAll rest
    return value :: values

/-- Runs statements in their order, up to the first that is stopped. -/
def executeAll : List Stmt → Run Unit
  | [] => pure ()
  | s :: rest => fun m =>
    match execute perform s m with
    | .done _ m => executeAll rest m
    | .stopped signal m => .stopped signal m

/-- The value of an expression. -/
def evaluation (e : Expr) : Run Value :=
  match e with
  | .literal value => pure (.ofLiteral value)
  | .array _ items => pure (.array (items.map .ofLiteral))
  | .grouping inner => evaluate perform inner
  | .unary operator right => do
    let value ← evaluate perform right
    lift (Operator.unary operator value) operator.line
  | .binary left operator right => do
    let a ← evaluate perform left
    let b ← evaluate perform right
    lift (Operator.binary operator a b) operator.line
  | .logical left operator right => do
    let a ← evaluate perform left
    if Operator.decides operator a then return a else evaluate perform right
  | .ternary condition _ yes no => do
    let c ← evaluate perform condition
    if c.truthy then evaluate perform yes else evaluate perform no
  | .var id name => lookUp id name
  | .this id keyword => lookUp id keyword
  | .global name => do
    let value? ← look fun m => m.heap.getOwn? globalFrame name.lexeme
    orFail value? name.line (.undefinedVariable name.lexeme)
  | .assign id name value => do
    let value ← evaluate perform value
    assign id name value
    return value
  | .call callee paren arguments => do
    let f ← evaluate perform callee
    let values ← evaluateAll perform arguments
    perform (.invoke f values paren.line)
  | .lambda routine => makeFunction routine
  | .get object name => do
    match ← evaluate perform object with
    | .object id => property id name.lexeme name.line
    | _ => fail name.line .readsNoInstance
  | .set object name value => do
    match ← evaluate perform object with
    | .object id =>
      let value ← evaluate perform value
      setField id name.lexeme value
      return value
    | _ => fail name.line .writesNoInstance
  | .subscript id name index => do
    let target ← lookUp id name
    let position ← evaluate perform index
    lift (Operator.item name.lexeme target position) name.line

/-- The superclass that a class declaration names, which must be a class. -/
def superclassOf (name : Token) : Option Expr → Run (Option ClassId)
  | none => pure none
  | some e => do
    match ← evaluate perform e with
    | .classValue id => return some id
    | _ => fail (e.line?.getD name.line) .superclassNotClass

/-- The methods of a class, made in a frame. Of two with one name the later one counts. -/
def methodTable (frame : FrameId) (methods : List Routine) : Table Closure :=
  Table.putAll {} (methods.map fun r => (r.name.lexeme, ⟨r, frame, r.name.lexeme == initializerName⟩))

/-- Makes a class and binds its name. -/
def classDeclaration (name : Token) (superclass : Option Expr) (methods : List Routine) : Run Unit := do
  let parent ← superclassOf perform name superclass
  let frame ← look (·.frame)
  let id ← onHeap (·.addClass ⟨name.lexeme, parent, methodTable frame methods⟩)
  define name.lexeme (.classValue id)

/-- Runs statements in a new frame inside the current one. -/
def block (body : List Stmt) : Run Unit := do
  let frame ← look (·.frame)
  let inner ← onHeap (·.addChild frame)
  inFrame inner (executeAll perform body)

/-- Runs a statement; a loop makes at most the given number of rounds. -/
def execution (rounds : Nat) (s : Stmt) : Run Unit :=
  match s with
  | .expression value => do
    discard <| evaluate perform value
  | .print keyword values => do
    let values ← evaluateAll perform values
    let text ← look fun m => String.intercalate " " (Value.texts m.heap values)
    printLine text keyword.line
  | .varDecl name none => define name.lexeme .nil
  | .varDecl name (some value) => do
    let value ← evaluate perform value
    define name.lexeme value
  | .block body => block perform body
  | .ifElse condition yes no => do
    let c ← evaluate perform condition
    if c.truthy then execute perform yes
    else
      match no with
      | some no => execute perform no
      | none => return
  | .whileLoop condition body =>
    repeatWhile (Value.truthy <$> evaluate perform condition) (execute perform body) rounds
  | .function routine => do
    let value ← makeFunction routine
    define routine.name.lexeme value
  | .breakLoop _ => stop .broke
  | .returnValue _ none => stop (.returned .nil)
  | .returnValue _ (some value) => do
    let value ← evaluate perform value
    stop (.returned value)
  | .classDecl name superclass methods => classDeclaration perform name superclass methods
  | .useLibrary _ path => useLibrary path

/-- The receiver of a bound method. -/
def receiver (f : Closure) : Run Value := do
  let value? ← look fun m => m.heap.getAt? f.frame 0 receiverName
  orFail value? f.routine.name.line (.undefinedVariable receiverName)

/-- What the body of a function comes to, as the result of a call: a returned value, or else the receiver of an
initializer, or no value. -/
def result (f : Closure) (body : Run Unit) : Run Value :=
  fun m =>
    match body m with
    | .done _ m => if f.isInitializer then receiver f m else .done .nil m
    | .stopped (.returned value) m => .done value m
    | .stopped s m => .stopped s m

/-- Runs the body of a function in a new frame that binds its parameters. -/
def apply (f : Closure) (arguments : List Value) : Run Value := do
  let bindings := Table.putAll {} ((f.routine.params.map (·.lexeme)).zip arguments)
  let frame ← onHeap (·.addFrame ⟨bindings, some f.frame⟩)
  result f (inFrame frame (executeAll perform f.routine.body))

/-- Makes an instance: runs its initializer, if it has one, and then copies its methods into its fields. -/
def instantiate (classId : ClassId) (arguments : List Value) (line : Nat) : Run Value := do
  let id ← onHeap (·.addInstance { classId })
  match ← look fun m => m.heap.findMethod? classId initializerName with
  | some method =>
    let bound ← onHeap (·.bind method id)
    discard <| nested line (apply perform bound arguments)
  | none => pure ()
  onHeap fun h => ((), h.copyLineage id classId)
  return .object id

/-- Calls a value. The number of arguments is checked first. -/
def invocation (callee : Value) (arguments : List Value) (line : Nat) : Run Value :=
  match callee with
  | .native f =>
    if f.arity.accepts arguments.length then callPrimitive f.primitive arguments line
    else fail line (.wrongArity f.arity arguments.length)
  | .closure id => do
    match ← look fun m => m.heap.closure? id with
    | some f =>
      if f.arity = arguments.length then nested line (apply perform f arguments)
      else fail line (.wrongArity (.exactly f.arity) arguments.length)
    | none => fail line .notCallable
  | .classValue id => do
    let arity ← look fun m => m.heap.classArity id initializerName
    if arity = arguments.length then instantiate perform id arguments line
    else fail line (.wrongArity (.exactly arity) arguments.length)
  | _ => fail line .notCallable

/-- Does a task in terms of the tasks within it. -/
def performOver (rounds : Nat) : Performer
  | .evaluate e => evaluation perform e
  | .execute s => execution perform rounds s
  | .invoke callee arguments line => invocation perform callee arguments line

end Evaluation

/-- Does a task with a grant of steps. -/
def perform : Nat → Performer
  | 0 => fun _ => Run.stop .suspended
  | steps + 1 => Evaluation.performOver (perform steps) steps

end Treewalk
