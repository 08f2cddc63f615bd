import Treewalk.Heap.Class
import Treewalk.Library.Primitive
import Treewalk.Machine.Channel
import Treewalk.Scope.Basic

/-!
The machine that runs programs, and the ways in which running a phrase can end: with a result, or stopped by a signal,
which is a failure, the end of a function or of a loop from within, or the lack of further steps.
-/

namespace Treewalk

/-- Why a program fails while it runs. -/
inductive RuntimeFault where
  | undefinedVariable (name : String)
  | undefinedProperty (name : String)
  | operandNotNumber
  | operandsNotNumbers
  | operandsNotAddable
  | invalidUnary (lexeme : String)
  | invalidBinary (lexeme : String)
  | superclassNotClass
  | readsNoInstance
  | writesNoInstance
  | notArray (name : String)
  | indexNotNumber
  | indexOutOfBounds (position : Float) (length : Nat)
  | notCallable
  | wrongArity (expected : Arity) (got : Nat)
  | tooDeep
  | native (fault : NativeFault)
  | unwritable (reason : String)
deriving DecidableEq, Repr

/-- The wording of a fault. -/
def RuntimeFault.message : RuntimeFault → String
  | undefinedVariable name => "Undefined variable '" ++ name ++ "'."
  | undefinedProperty name => "Undefined property '" ++ name ++ "'."
  | operandNotNumber => "Operand must be a number."
  | operandsNotNumbers => "Operands must be numbers."
  | operandsNotAddable => "Operands must be two numbers or two strings."
  | invalidUnary lexeme => "Invalid unary operator '" ++ lexeme ++ "'."
  | invalidBinary lexeme => "Invalid binary operator '" ++ lexeme ++ "'."
  | superclassNotClass => "Superclass must be a class."
  | readsNoInstance => "Only instances have properties."
  | writesNoInstance => "Only instances have fields."
  | notArray name => "'" ++ name ++ "' is not an array."
  | indexNotNumber => "Index must be a number."
  | indexOutOfBounds position length =>
    "Index " ++ Number.valueText position ++ " out of bounds for array of length " ++ toString length ++ "."
  | notCallable => "Can only call functions and classes."
  | wrongArity expected got => "Expected " ++ expected.text ++ " arguments but got " ++ toString got ++ "."
  | tooDeep => "Too many nested environments; possible infinite recursion."
  | native fault => fault.message
  | unwritable reason => "Could not write output: " ++ reason

/-- A failure and its line. -/
structure RuntimeError where
  line : Nat
  fault : RuntimeFault
deriving DecidableEq, Repr

/-- A library that a program asked for in vain. -/
structure MissingLibrary where
  path : String
  line : Nat
deriving DecidableEq, Repr

/-- What stops a phrase before it has a result. -/
inductive Signal where
  | failed (error : RuntimeError)
  | returned (value : Value)
  | broke
  /-- The steps that were granted are used up. -/
  | suspended

/-- A function of the host, which gives plain data or a message. -/
abbrev HostFunction := List Value → Except String Literal

/-- The machine: its heap, the current frame, the number of running calls, the distances of local names, its channels,
the functions of its host, and the libraries asked for in vain since the last report. -/
structure Machine where
  heap : Heap
  frame : FrameId
  depth : Nat := 0
  distances : Distances := {}
  sink : Sink := {}
  input : Input := {}
  clock : Clock := {}
  host : List HostFunction := []
  notices : List MissingLibrary := []

/-- The outermost frame. -/
def globalFrame : FrameId := ⟨0⟩

/-- The largest number of calls that may run at once. -/
def depthLimit : Nat := 2048

/-- How running a phrase ends. -/
inductive Outcome (α : Type) where
  | done (value : α) (machine : Machine)
  | stopped (signal : Signal) (machine : Machine)

/-- Something that a machine can run. -/
def Run (α : Type) : Type :=
  Machine → Outcome α

namespace Run

variable {α β : Type}

@[inline] protected def pure (a : α) : Run α :=
  fun m => .done a m

@[inline] protected def bind (r : Run α) (f : α → Run β) : Run β :=
  fun m =>
    match r m with
    | .done a m => f a m
    | .stopped s m => .stopped s m

instance : Monad Run where
  pure := Run.pure
  bind := Run.bind

/-- Stops with a signal. -/
@[inline] def stop (s : Signal) : Run α :=
  fun m => .stopped s m

/-- Fails at a line. -/
def fail (line : Nat) (fault : RuntimeFault) : Run α :=
  stop (.failed ⟨line, fault⟩)

/-- What the machine tells. -/
@[inline] def look (f : Machine → α) : Run α :=
  fun m => .done (f m) m

/-- Changes the machine. -/
@[inline] def change (f : Machine → Machine) : Run Unit :=
  fun m => .done () (f m)

/-- Changes the heap, with a result. -/
@[inline] def onHeap (f : Heap → α × Heap) : Run α :=
  fun m =>
    let (a, heap) := f m.heap
    .done a { m with heap }

/-- The value, or a failure at a line if there is none. -/
def orFail (value : Option α) (line : Nat) (fault : RuntimeFault) : Run α :=
  match value with
  | some a => .pure a
  | none => fail line fault

/-- Runs in a frame and comes back to the current one, however it ends. -/
def inFrame (frame : FrameId) (r : Run α) : Run α :=
  fun m =>
    let outer := m.frame
    match r { m with frame } with
    | .done a m => .done a { m with frame := outer }
    | .stopped s m => .stopped s { m with frame := outer }

/-- Runs as one more call, which ends however it ends. -/
def nested (line : Nat) (r : Run α) : Run α :=
  fun m =>
    if depthLimit ≤ m.depth then fail line .tooDeep m
    else
      match r { m with depth := m.depth + 1 } with
      | .done a m => .done a { m with depth := m.depth - 1 }
      | .stopped s m => .stopped s { m with depth := m.depth - 1 }

/-- Runs the body as long as the test holds, at most the given number of times. A break ends the loop only. -/
def repeatWhile (test : Run Bool) (body : Run Unit) : Nat → Run Unit
  | 0 => stop .suspended
  | rounds + 1 => fun m =>
    match test m with
    | .stopped s m => .stopped s m
    | .done false m => .done () m
    | .done true m =>
      match body m with
      | .done _ m => repeatWhile test body rounds m
      | .stopped .broke m => .done () m
      | .stopped s m => .stopped s m

end Run

end Treewalk
