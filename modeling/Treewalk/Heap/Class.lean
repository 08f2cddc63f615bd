import Treewalk.Heap.Frame

/-!
Classes and instances. A method is found in the nearest class of the chain of superclasses that has it. It becomes a
function by being bound to its receiver, in a frame of its own.
-/

namespace Treewalk

/-- The name under which a method finds its receiver. -/
def receiverName : String := "this"

namespace Heap

/-- At most `count` classes from the given one upwards. -/
def ancestryUpTo (h : Heap) : Nat → ClassId → List Class
  | 0, _ => []
  | count + 1, id =>
    match h.class? id with
    | none => []
    | some c =>
      c :: match c.superclass with
        | none => []
        | some parent => h.ancestryUpTo count parent

/-- A class and its superclasses, itself first. -/
def ancestry (h : Heap) (id : ClassId) : List Class :=
  h.ancestryUpTo h.classes.size id

/-- A class and its superclasses, itself last. -/
def lineage (h : Heap) (id : ClassId) : List Class :=
  (h.ancestry id).reverse

/-- The method of a class under a name: its own one, or else that of its superclass. -/
def findMethod? (h : Heap) (id : ClassId) (name : String) : Option Closure :=
  (h.ancestry id).findSome? (·.methods.get? name)

/-- The number of arguments that making an instance takes. -/
def classArity (h : Heap) (id : ClassId) (initializer : String) : Nat :=
  ((h.findMethod? id initializer).map (·.arity)).getD 0

/-- Binds a method to a receiver, in a new frame inside that of the method. -/
def bind (h : Heap) (method : Closure) (receiver : InstanceId) : Closure × Heap :=
  let (frame, h) := h.addFrame
    { bindings := ⟨[(receiverName, .object receiver)]⟩, enclosing := some method.frame }
  ({ method with frame }, h)

/-- Binds a method to a receiver, as a value. -/
def bindValue (h : Heap) (method : Closure) (receiver : InstanceId) : Value × Heap :=
  let (closure, h) := h.bind method receiver
  let (id, h) := h.addClosure closure
  (.closure id, h)

/-- Sets a field of an instance. -/
def setField (h : Heap) (id : InstanceId) (name : String) (value : Value) : Heap :=
  { h with instances := h.instances.modify id.index fun i => { i with fields := i.fields.put name value } }

/-- What a property of an instance is. -/
inductive Property where
  | field (value : Value)
  | method (closure : Closure)

/-- A property of an instance: a field, or else a method of its class. -/
def property? (h : Heap) (id : InstanceId) (name : String) : Option Property :=
  (h.instance? id).bind fun i =>
    match i.fields.get? name with
    | some value => some (.field value)
    | none => (h.findMethod? i.classId name).map .method

/-- Copies a method into the fields of an instance, bound to it. -/
def copyMethod (h : Heap) (id : InstanceId) (entry : String × Closure) : Heap :=
  let (value, h) := h.bindValue entry.2 id
  h.setField id entry.1 value

/-- Copies the methods of a class into the fields of an instance, in the order of their names. -/
def copyMethods (h : Heap) (id : InstanceId) (c : Class) : Heap :=
  c.methods.sorted.foldl (fun h entry => h.copyMethod id entry) h

/-- Copies all methods of an instance's class into its fields: those of the topmost class first, so that methods of
subclasses take their place. -/
def copyLineage (h : Heap) (id : InstanceId) (classId : ClassId) : Heap :=
  (h.lineage classId).foldl (fun h c => h.copyMethods id c) h

end Heap

end Treewalk
