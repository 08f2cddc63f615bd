import Treewalk.Table
import Treewalk.Value.Basic

/-!
The heap: frames of bindings, functions with the frame they were made in, classes and instances. Nothing is ever
removed from it, and each part is known by its place.
-/

namespace Treewalk

/-- A frame of bindings and the frame around it. -/
structure Frame where
  bindings : Table Value := {}
  enclosing : Option FrameId := none

/-- A function: its routine and the frame in which its body finds what it does not declare itself. -/
structure Closure where
  routine : Routine
  frame : FrameId
  isInitializer : Bool

/-- The number of arguments of a function. -/
def Closure.arity (f : Closure) : Nat :=
  f.routine.params.length

/-- A class: its name, its superclass and its own methods. -/
structure Class where
  name : String
  superclass : Option ClassId
  methods : Table Closure

/-- An instance: its class and its fields. -/
structure Instance where
  classId : ClassId
  fields : Table Value := {}

/-- All that values refer to. -/
structure Heap where
  frames : Array Frame := #[]
  closures : Array Closure := #[]
  classes : Array Class := #[]
  instances : Array Instance := #[]

namespace Heap

/-- The frame at a place. -/
def frame? (h : Heap) (id : FrameId) : Option Frame :=
  h.frames[id.index]?

/-- The function at a place. -/
def closure? (h : Heap) (id : ClosureId) : Option Closure :=
  h.closures[id.index]?

/-- The class at a place. -/
def class? (h : Heap) (id : ClassId) : Option Class :=
  h.classes[id.index]?

/-- The instance at a place. -/
def instance? (h : Heap) (id : InstanceId) : Option Instance :=
  h.instances[id.index]?

/-- Adds a frame. -/
def addFrame (h : Heap) (frame : Frame) : FrameId × Heap :=
  (⟨h.frames.size⟩, { h with frames := h.frames.push frame })

/-- Adds a function. -/
def addClosure (h : Heap) (closure : Closure) : ClosureId × Heap :=
  (⟨h.closures.size⟩, { h with closures := h.closures.push closure })

/-- Adds a class. -/
def addClass (h : Heap) (c : Class) : ClassId × Heap :=
  (⟨h.classes.size⟩, { h with classes := h.classes.push c })

/-- Adds an instance. -/
def addInstance (h : Heap) (i : Instance) : InstanceId × Heap :=
  (⟨h.instances.size⟩, { h with instances := h.instances.push i })

end Heap

end Treewalk
