import Treewalk.Proofs.Heap.Copying
import Treewalk.Proofs.Scope.Placement

/-!
Methods that are bound to receivers. A bound method stays bound to its receiver as long as nothing binds the name of the
receiver anew in a frame other than the outermost one.
-/

namespace Treewalk.Heap

/-- The function is a method of a class. -/
def IsMethod (h : Heap) (method : Closure) : Prop :=
  ∃ id c name, h.class? id = some c ∧ (name, method) ∈ c.methods.entries

/-- The second heap has each frame of the first one within the same frame, with the same receiver unless it is the
outermost one, and each class. -/
structure Retains (h h' : Heap) : Prop where
  frames : ∀ id f, h.frame? id = some f → ∃ f', h'.frame? id = some f' ∧ f'.enclosing = f.enclosing ∧
    (id ≠ globalFrame → f'.bindings.get? receiverName = f.bindings.get? receiverName)
  classes : ∀ id c, h.class? id = some c → h'.class? id = some c

/-- The function is a method that was bound to the receiver on a heap out of which this one has grown. -/
def BoundTo (h : Heap) (f : Closure) (receiver : InstanceId) : Prop :=
  ∃ earlier method, IsMethod earlier method ∧ earlier.frames.size ≠ 0 ∧ f = (earlier.bind method receiver).1 ∧
    (earlier.bind method receiver).2.Retains h

variable {h h' h'' : Heap}

namespace Retains

theorem refl (h : Heap) : h.Retains h := ⟨fun _ f hf => ⟨f, hf, rfl, fun _ => rfl⟩, fun _ _ hc => hc⟩

theorem trans (a : h.Retains h') (b : h'.Retains h'') : h.Retains h'' := by
  refine ⟨fun id f hf => ?_, fun id c hc => b.classes id c (a.classes id c hc)⟩
  obtain ⟨f', hf', henclosing, hreceiver⟩ := a.frames id f hf
  obtain ⟨f'', hf'', henclosing', hreceiver'⟩ := b.frames id f' hf'
  exact ⟨f'', hf'', henclosing'.trans henclosing, fun hne => (hreceiver' hne).trans (hreceiver hne)⟩

/-- A change of neither frames nor classes. -/
theorem of_eq (hframes : h'.frames = h.frames) (hclasses : h'.classes = h.classes) : h.Retains h' := by
  refine ⟨fun id f hf => ⟨f, ?_, rfl, fun _ => rfl⟩, fun id c hc => ?_⟩
  · rwa [frame?, hframes]
  · rwa [class?, hclasses]

theorem define (h : Heap) {id : FrameId} {name : String} (value : Value)
    (hname : id = globalFrame ∨ name ≠ receiverName) : h.Retains (h.define id name value) := by
  refine ⟨fun key f hf => ?_, fun _ _ hc => hc⟩
  rw [frame?_define, hf]
  refine ⟨_, rfl, ?_, fun hne => ?_⟩
  · split <;> rfl
  · split
    · next heq =>
      subst heq
      exact (Table.get?_put ..).trans (if_neg (hname.resolve_left hne))
    · rfl

theorem addFrame (h : Heap) (frame : Frame) : h.Retains (h.addFrame frame).2 := by
  refine ⟨fun key f hf => ⟨f, ?_, rfl, fun _ => rfl⟩, fun _ _ hc => hc⟩
  rw [frame?_addFrame, if_neg ?_]
  · exact hf
  · rintro rfl
    cases frame?_next.symm.trans hf

theorem addClass (h : Heap) (c : Class) : h.Retains (h.addClass c).2 := by
  refine ⟨fun _ f hf => ⟨f, hf, rfl, fun _ => rfl⟩, fun id d hd => ?_⟩
  obtain ⟨hlt, -⟩ := Array.getElem?_eq_some_iff.mp hd
  exact (Array.getElem?_push_lt hlt).trans ((Array.getElem?_eq_getElem hlt).symm.trans hd)

variable (a : h.Retains h')
include a

theorem parent? {id parent : FrameId} (hp : h.parent? id = some parent) : h'.parent? id = some parent := by
  obtain ⟨f, hf, henclosing⟩ := exists_frame_of_parent? hp
  obtain ⟨f', hf', henclosing', -⟩ := a.frames id f hf
  rw [Heap.parent?, hf', Option.bind_some, henclosing', henclosing]

theorem ancestor? {id target : FrameId} {n : Nat} (hn : h.ancestor? id n = some target) :
    h'.ancestor? id n = some target := by
  induction n generalizing id with
  | zero => exact hn
  | succ n ih =>
    obtain ⟨parent, hp, hrest⟩ := Option.bind_eq_some_iff.mp hn
    exact Option.bind_eq_some_iff.mpr ⟨parent, a.parent? hp, ih hrest⟩

theorem getOwn? {id : FrameId} {value : Value} (hne : id ≠ globalFrame)
    (hv : h.getOwn? id receiverName = some value) : h'.getOwn? id receiverName = some value := by
  obtain ⟨f, hf, hget⟩ := Option.bind_eq_some_iff.mp hv
  obtain ⟨f', hf', -, hreceiver⟩ := a.frames id f hf
  exact Option.bind_eq_some_iff.mpr ⟨f', hf', (hreceiver hne).trans hget⟩

theorem size_ne_zero (hsize : h.frames.size ≠ 0) : h'.frames.size ≠ 0 := by
  obtain ⟨f', hf', -⟩ := a.frames globalFrame _ (Array.getElem?_eq_getElem (Nat.pos_of_ne_zero hsize))
  obtain ⟨hlt, -⟩ := Array.getElem?_eq_some_iff.mp hf'
  exact Nat.ne_of_gt hlt

theorem isMethod {method : Closure} (hm : h.IsMethod method) : h'.IsMethod method := by
  obtain ⟨id, c, name, hc, hentry⟩ := hm
  exact ⟨id, c, name, a.classes id c hc, hentry⟩

end Retains

/-! ### Methods -/

theorem isMethod_of_findMethod? {id : ClassId} {name : String} {method : Closure}
    (hf : h.findMethod? id name = some method) : h.IsMethod method := by
  obtain ⟨c, hc, hget⟩ := List.exists_of_findSome?_eq_some hf
  obtain ⟨id', hid⟩ := exists_class?_of_mem_ancestryUpTo hc
  exact ⟨id', c, name, hid, Table.mem_of_get? hget⟩

theorem isMethod_of_property? {id : InstanceId} {name : String} {method : Closure}
    (hp : h.property? id name = some (.method method)) : h.IsMethod method := by
  obtain ⟨i, -, hi⟩ := Option.bind_eq_some_iff.mp hp
  split at hi
  · cases hi
  · obtain ⟨found, hfound, heq⟩ := Option.map_eq_some_iff.mp hi
    cases heq
    exact isMethod_of_findMethod? hfound

theorem isMethod_of_mem_copies {id : ClassId} {entry : String × Closure} (he : entry ∈ h.copies id) :
    h.IsMethod entry.2 := by
  obtain ⟨c, hc, hentry⟩ := List.mem_flatMap.mp he
  obtain ⟨id', hid⟩ := exists_class?_of_mem_ancestryUpTo (List.mem_reverse.mp hc)
  exact ⟨id', c, entry.1, hid, (sortBy_perm _ _).mem_iff.mp hentry⟩

theorem isMethod_addClass {c : Class} {method : Closure} (hm : (h.addClass c).2.IsMethod method) :
    h.IsMethod method ∨ ∃ name, (name, method) ∈ c.methods.entries := by
  obtain ⟨id, d, name, hd, hentry⟩ := hm
  rw [class?, addClass, Array.getElem?_push] at hd
  split at hd
  · cases hd
    exact Or.inr ⟨name, hentry⟩
  · exact Or.inl ⟨id, d, name, hd, hentry⟩

/-! ### Bound methods -/

theorem boundTo_bind {method : Closure} (hm : h.IsMethod method) (hsize : h.frames.size ≠ 0) (receiver : InstanceId) :
    (h.bind method receiver).2.BoundTo (h.bind method receiver).1 receiver :=
  ⟨h, method, hm, hsize, rfl, Retains.refl _⟩

namespace BoundTo

variable {f : Closure} {receiver : InstanceId} (b : h.BoundTo f receiver)
include b

theorem retain (a : h.Retains h') : h'.BoundTo f receiver := by
  obtain ⟨earlier, method, hm, hsize, heq, hretains⟩ := b
  exact ⟨earlier, method, hm, hsize, heq, hretains.trans a⟩

theorem getOwn? : h.getOwn? f.frame receiverName = some (.object receiver) := by
  obtain ⟨earlier, method, -, hsize, rfl, hretains⟩ := b
  have hne : (earlier.bind method receiver).1.frame ≠ globalFrame := fun heq => hsize (congrArg FrameId.index heq)
  have hframe : (earlier.bind method receiver).2.frame? (earlier.bind method receiver).1.frame =
      some (receiverFrame method receiver) := frame?_addFrame_self earlier _
  refine hretains.getOwn? hne ?_
  rw [Heap.getOwn?, hframe]
  rfl

theorem unique {other : InstanceId} (b' : h.BoundTo f other) : receiver = other := by
  cases b.getOwn?.symm.trans b'.getOwn?
  rfl

theorem method : ∃ method, h.IsMethod method ∧ f.routine = method.routine := by
  obtain ⟨earlier, method, hm, -, rfl, hretains⟩ := b
  exact ⟨method, hretains.isMethod ((Retains.addFrame earlier _).isMethod hm), rfl⟩

end BoundTo

end Treewalk.Heap
