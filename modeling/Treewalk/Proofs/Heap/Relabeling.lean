import Treewalk.Proofs.Scope.Relabeling
import Treewalk.Value.Text

/-!
Heaps with new labels in the routines that they hold. Labels lie in functions and in the methods of classes only: frames
and instances stay as they are, values mean the same, and every operation on the heap passes by the new labels.
-/

namespace Treewalk

/-! ### Tables -/

namespace Table

variable {α β : Type} (g : α → β)

/-- The entry with another value. -/
def mapEntry (entry : String × α) : String × β := (entry.1, g entry.2)

/-- The table with other values under its names. -/
def map (t : Table α) : Table β := ⟨t.entries.map (mapEntry g)⟩

theorem get?_map (t : Table α) (name : String) : (t.map g).get? name = (t.get? name).map g := by
  obtain ⟨entries⟩ := t
  show lookup name (entries.map (mapEntry g)) = (lookup name entries).map g
  induction entries with
  | nil => rfl
  | cons entry rest ih =>
    rw [List.map_cons, lookup, lookup]
    show (if entry.1 = name then some (g entry.2) else _) = _
    rw [ih]
    split
    · rfl
    · rfl

theorem put_map (t : Table α) (name : String) (value : α) :
    (t.map g).put name (g value) = (t.put name value).map g := by
  obtain ⟨entries⟩ := t
  show (⟨insert name (g value) (entries.map (mapEntry g))⟩ : Table β) = ⟨(insert name value entries).map (mapEntry g)⟩
  congr 1
  induction entries with
  | nil => rfl
  | cons entry rest ih =>
    rw [List.map_cons, insert, insert]
    show (if entry.1 = name then _ else _) = _
    rw [ih]
    split
    · rfl
    · rfl

theorem putAll_map (t : Table α) (entries : List (String × α)) :
    (t.map g).putAll (entries.map (mapEntry g)) = (t.putAll entries).map g := by
  unfold putAll
  induction entries generalizing t with
  | nil => rfl
  | cons entry rest ih =>
    rw [List.map_cons, List.foldl_cons, List.foldl_cons, ← ih]
    congr 1
    exact put_map g t entry.1 entry.2

theorem sorted_map (t : Table α) : (t.map g).sorted = t.sorted.map (mapEntry g) :=
  sortBy_map (mapEntry g) (fun _ _ => rfl) t.entries

end Table

/-! ### Parts of a heap -/

/-- The function with new labels. -/
def Closure.relabel (f : Relabeling) (c : Closure) : Closure := { c with routine := c.routine.relabel f }

/-- The class with new labels in its methods. -/
def Class.relabel (f : Relabeling) (c : Class) : Class := { c with methods := c.methods.map (·.relabel f) }

/-- The heap with new labels in its functions and in the methods of its classes. -/
def Heap.relabel (f : Relabeling) (h : Heap) : Heap :=
  { h with closures := h.closures.map (·.relabel f), classes := h.classes.map (·.relabel f) }

/-- The property, with new labels if it is a method. -/
def Heap.Property.relabel (f : Relabeling) : Heap.Property → Heap.Property
  | .field value => .field value
  | .method closure => .method (closure.relabel f)

variable (f : Relabeling)

theorem Routine.relabel_eq (r : Routine) :
    r.relabel f = ⟨r.name.relabel f, r.params.map (·.relabel f), Stmt.relabelAll f r.body⟩ := by
  cases r
  rfl

@[simp] theorem Closure.arity_relabel (c : Closure) : (c.relabel f).arity = c.arity := by
  unfold arity relabel
  rw [Routine.relabel_eq, List.length_map]

namespace Heap

variable (h : Heap)

/-! ### Frames -/

@[simp] theorem frame?_relabel (id : FrameId) : (h.relabel f).frame? id = h.frame? id := rfl

@[simp] theorem parent?_relabel (id : FrameId) : (h.relabel f).parent? id = h.parent? id := rfl

@[simp] theorem getOwn?_relabel (id : FrameId) (name : String) :
    (h.relabel f).getOwn? id name = h.getOwn? id name := rfl

theorem addFrame_relabel (frame : Frame) :
    (h.relabel f).addFrame frame = ((h.addFrame frame).1, (h.addFrame frame).2.relabel f) := rfl

theorem addChild_relabel (parent : FrameId) :
    (h.relabel f).addChild parent = ((h.addChild parent).1, (h.addChild parent).2.relabel f) := rfl

theorem define_relabel (id : FrameId) (name : String) (value : Value) :
    (h.relabel f).define id name value = (h.define id name value).relabel f := rfl

@[simp] theorem ancestor?_relabel (id : FrameId) (distance : Nat) :
    (h.relabel f).ancestor? id distance = h.ancestor? id distance := by
  induction distance generalizing id with
  | zero => rfl
  | succ distance ih =>
    unfold ancestor?
    rw [parent?_relabel]
    congr 1
    funext parent
    exact ih parent

theorem chainUpTo_relabel (count : Nat) (id : FrameId) : (h.relabel f).chainUpTo count id = h.chainUpTo count id := by
  induction count generalizing id with
  | zero => rfl
  | succ count ih =>
    unfold chainUpTo
    rw [parent?_relabel]
    cases h.parent? id with
    | none => rfl
    | some parent => exact congrArg (id :: ·) (ih parent)

@[simp] theorem owner?_relabel (id : FrameId) (name : String) : (h.relabel f).owner? id name = h.owner? id name := by
  unfold owner? chain
  rw [chainUpTo_relabel]
  rfl

@[simp] theorem getAt?_relabel (id : FrameId) (distance : Nat) (name : String) :
    (h.relabel f).getAt? id distance name = h.getAt? id distance name := by
  unfold getAt?
  rw [ancestor?_relabel]
  rfl

/-! ### Functions and classes -/

theorem closure?_relabel (id : ClosureId) : (h.relabel f).closure? id = (h.closure? id).map (·.relabel f) :=
  Array.getElem?_map ..

theorem class?_relabel (id : ClassId) : (h.relabel f).class? id = (h.class? id).map (·.relabel f) :=
  Array.getElem?_map ..

theorem addClosure_relabel (c : Closure) :
    (h.relabel f).addClosure (c.relabel f) = ((h.addClosure c).1, (h.addClosure c).2.relabel f) := by
  simp [addClosure, relabel]

theorem addClass_relabel (c : Class) :
    (h.relabel f).addClass (c.relabel f) = ((h.addClass c).1, (h.addClass c).2.relabel f) := by
  simp [addClass, relabel]

theorem addInstance_relabel (i : Instance) :
    (h.relabel f).addInstance i = ((h.addInstance i).1, (h.addInstance i).2.relabel f) := rfl

theorem ancestryUpTo_relabel (count : Nat) (id : ClassId) :
    (h.relabel f).ancestryUpTo count id = (h.ancestryUpTo count id).map (·.relabel f) := by
  induction count generalizing id with
  | zero => rfl
  | succ count ih =>
    unfold ancestryUpTo
    rw [class?_relabel]
    cases h.class? id with
    | none => rfl
    | some c =>
      obtain ⟨name, superclass, methods⟩ := c
      cases superclass with
      | none => rfl
      | some parent => exact congrArg (Class.relabel f ⟨name, some parent, methods⟩ :: ·) (ih parent)

theorem ancestry_relabel (id : ClassId) : (h.relabel f).ancestry id = (h.ancestry id).map (·.relabel f) := by
  unfold ancestry
  rw [ancestryUpTo_relabel, show (h.relabel f).classes.size = h.classes.size from Array.size_map ..]

theorem findMethod?_relabel (id : ClassId) (name : String) :
    (h.relabel f).findMethod? id name = (h.findMethod? id name).map (·.relabel f) := by
  unfold findMethod?
  rw [ancestry_relabel]
  induction h.ancestry id with
  | nil => rfl
  | cons c rest ih =>
    have hown : (c.relabel f).methods.get? name = (c.methods.get? name).map (·.relabel f) := Table.get?_map ..
    rw [List.map_cons, List.findSome?_cons, List.findSome?_cons, ih, hown]
    cases c.methods.get? name with
    | none => rfl
    | some method => rfl

@[simp] theorem classArity_relabel (id : ClassId) (name : String) :
    (h.relabel f).classArity id name = h.classArity id name := by
  unfold classArity
  rw [findMethod?_relabel, Option.map_map]
  congr 2
  funext c
  exact Closure.arity_relabel f c

theorem property?_relabel (id : InstanceId) (name : String) :
    (h.relabel f).property? id name = (h.property? id name).map (·.relabel f) := by
  unfold property?
  show (h.instance? id).bind _ = _
  cases h.instance? id with
  | none => rfl
  | some i =>
    rw [Option.bind_some, Option.bind_some, findMethod?_relabel]
    cases i.fields.get? name with
    | some value => rfl
    | none =>
      dsimp only
      rw [Option.map_map, Option.map_map]
      rfl

/-! ### Methods bound to instances -/

theorem bind_relabel (method : Closure) (receiver : InstanceId) :
    (h.relabel f).bind (method.relabel f) receiver
      = ((h.bind method receiver).1.relabel f, (h.bind method receiver).2.relabel f) := rfl

theorem bindValue_relabel (method : Closure) (receiver : InstanceId) :
    (h.relabel f).bindValue (method.relabel f) receiver
      = ((h.bindValue method receiver).1, (h.bindValue method receiver).2.relabel f) := by
  unfold bindValue
  simp only [bind_relabel, addClosure_relabel]

theorem setField_relabel (id : InstanceId) (name : String) (value : Value) :
    (h.relabel f).setField id name value = (h.setField id name value).relabel f := rfl

theorem copyMethod_relabel (id : InstanceId) (entry : String × Closure) :
    (h.relabel f).copyMethod id (Table.mapEntry (·.relabel f) entry) = (h.copyMethod id entry).relabel f := by
  unfold copyMethod
  simp only [Table.mapEntry, bindValue_relabel, setField_relabel]

theorem copyMethods_relabel (id : InstanceId) (c : Class) :
    (h.relabel f).copyMethods id (c.relabel f) = (h.copyMethods id c).relabel f := by
  unfold copyMethods
  rw [show (c.relabel f).methods.sorted = c.methods.sorted.map (Table.mapEntry (·.relabel f)) from Table.sorted_map ..]
  induction c.methods.sorted generalizing h with
  | nil => rfl
  | cons entry rest ih => rw [List.map_cons, List.foldl_cons, List.foldl_cons, copyMethod_relabel, ih]

theorem copyLineage_relabel (id : InstanceId) (classId : ClassId) :
    (h.relabel f).copyLineage id classId = (h.copyLineage id classId).relabel f := by
  unfold copyLineage lineage
  rw [ancestry_relabel, ← List.map_reverse]
  induction (h.ancestry classId).reverse generalizing h with
  | nil => rfl
  | cons c rest ih => rw [List.map_cons, List.foldl_cons, List.foldl_cons, copyMethods_relabel, ih]

/-! ### Texts -/

@[simp] theorem closureName_relabel (id : ClosureId) : (h.relabel f).closureName id = h.closureName id := by
  unfold closureName
  rw [closure?_relabel, Option.map_map]
  congr 2
  funext c
  show (c.routine.relabel f).name.lexeme = c.routine.name.lexeme
  rw [Routine.relabel_eq]
  rfl

@[simp] theorem className_relabel (id : ClassId) : (h.relabel f).className id = h.className id := by
  unfold className
  rw [class?_relabel, Option.map_map]
  rfl

@[simp] theorem instanceClassName_relabel (id : InstanceId) :
    (h.relabel f).instanceClassName id = h.instanceClassName id := by
  unfold instanceClassName
  simp only [className_relabel]
  rfl

end Heap

mutual

theorem Value.text_relabel (h : Heap) : ∀ v : Value, v.text (h.relabel f) = v.text h
  | .nil => rfl
  | .bool _ => rfl
  | .number _ => rfl
  | .string _ => rfl
  | .array items => by rw [Value.text, Value.text, Value.texts_relabel h items]
  | .closure id => by rw [Value.text, Value.text, Heap.closureName_relabel]
  | .native _ => rfl
  | .classValue id => by rw [Value.text, Value.text, Heap.className_relabel]
  | .object id => by rw [Value.text, Value.text, Heap.instanceClassName_relabel]

theorem Value.texts_relabel (h : Heap) : ∀ vs : List Value, Value.texts (h.relabel f) vs = Value.texts h vs
  | [] => rfl
  | v :: rest => by rw [Value.texts, Value.texts, Value.text_relabel h v, Value.texts_relabel h rest]

end

end Treewalk
