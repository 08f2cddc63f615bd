import Treewalk.Heap.Basic

/-!
Bindings in frames. A name can be looked up along the chain of frames, outwards from a given one, or at a known
distance from it.
-/

namespace Treewalk.Heap

/-- A frame without bindings inside another one. -/
def addChild (h : Heap) (parent : FrameId) : FrameId × Heap :=
  h.addFrame { enclosing := some parent }

/-- The frame around a frame. -/
def parent? (h : Heap) (id : FrameId) : Option FrameId :=
  (h.frame? id).bind (·.enclosing)

/-- Binds a name in a frame, replacing what it was bound to there. -/
def define (h : Heap) (id : FrameId) (name : String) (value : Value) : Heap :=
  { h with frames := h.frames.modify id.index fun f => { f with bindings := f.bindings.put name value } }

/-- What a name is bound to in a frame itself. -/
def getOwn? (h : Heap) (id : FrameId) (name : String) : Option Value :=
  (h.frame? id).bind (·.bindings.get? name)

/-- The frame at a distance outwards. -/
def ancestor? (h : Heap) (id : FrameId) : Nat → Option FrameId
  | 0 => some id
  | distance + 1 => (h.parent? id).bind fun parent => h.ancestor? parent distance

/-- What a name is bound to in the frame at a distance. -/
def getAt? (h : Heap) (id : FrameId) (distance : Nat) (name : String) : Option Value :=
  (h.ancestor? id distance).bind fun frame => h.getOwn? frame name

/-- Binds a name in the frame at a distance. -/
def assignAt? (h : Heap) (id : FrameId) (distance : Nat) (name : String) (value : Value) : Option Heap :=
  (h.ancestor? id distance).map fun frame => h.define frame name value

/-- At most `count` frames from the given one outwards. -/
def chainUpTo (h : Heap) : Nat → FrameId → List FrameId
  | 0, _ => []
  | count + 1, id =>
    id :: match h.parent? id with
      | none => []
      | some parent => h.chainUpTo count parent

/-- The frames from the given one outwards. -/
def chain (h : Heap) (id : FrameId) : List FrameId :=
  h.chainUpTo h.frames.size id

/-- The nearest frame of the chain that binds a name. -/
def owner? (h : Heap) (id : FrameId) (name : String) : Option FrameId :=
  (h.chain id).find? fun frame => (h.getOwn? frame name).isSome

/-- Looks a name up in at most `bound` frames from the given one outwards. -/
def getWithin (h : Heap) (name : String) : Nat → FrameId → Option Value
  | 0, _ => none
  | bound + 1, id => do
    let f ← h.frame? id
    match f.bindings.get? name with
    | some value => some value
    | none => h.getWithin name bound (← f.enclosing)

/-- What a name is bound to in the nearest frame that binds it. -/
def get? (h : Heap) (id : FrameId) (name : String) : Option Value :=
  h.getWithin name h.frames.size id

/-- Binds a name anew in the first of at most `bound` frames that binds it, from the given one outwards. Without such a
frame the heap is left as it is. -/
def assignWithin (h : Heap) (name : String) (value : Value) : Nat → FrameId → Bool × Heap
  | 0, _ => (false, h)
  | bound + 1, id =>
    match h.frame? id with
    | none => (false, h)
    | some f =>
      if (f.bindings.get? name).isSome then (true, h.define id name value)
      else
        match f.enclosing with
        | none => (false, h)
        | some enclosing => h.assignWithin name value bound enclosing

/-- Binds a name anew in the nearest frame that binds it, if there is one: whether there is, and the heap behind it. -/
def assign (h : Heap) (id : FrameId) (name : String) (value : Value) : Bool × Heap :=
  h.assignWithin name value h.frames.size id

/-- The heap behind an assignment that succeeds. -/
def assign? (h : Heap) (id : FrameId) (name : String) (value : Value) : Option Heap :=
  let (done, h) := h.assign id name value
  if done then some h else none

end Treewalk.Heap
