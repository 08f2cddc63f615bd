import Treewalk.Machine.Evaluation
import Treewalk.Proofs.Heap.Growth
import Treewalk.Proofs.Scope.Visits

/-!
Frames that mirror scopes. A chain of frames mirrors the open scopes of the check if there is a frame for each scope,
which binds what the scope declares, and the outermost frame behind them. A variable in whose initializer the check
stands need not be bound yet. Every function in a sound heap stands in a chain that mirrors the scopes in which the
check met it; methods of classes lack the frame of their receiver.
-/

namespace Treewalk

open Resolver

namespace Heap

/-- The chain of frames from the given one mirrors the open scopes, of which the names are given. -/
def Mirrors (h : Heap) (around : List Initializing) : FrameId → List (List String) → Prop
  | frame, [] => frame = globalFrame
  | frame, scope :: outer =>
    frame ≠ globalFrame ∧ (∀ name ∈ scope, (h.getOwn? frame name).isSome ∨ ⟨name, outer.length + 1⟩ ∈ around) ∧
      ∃ parent, h.parent? frame = some parent ∧ h.Mirrors around parent outer

namespace Mirrors

variable {h h' : Heap} {around more : List Initializing} {frame : FrameId} {names : List (List String)}

theorem mono (hm : h.Mirrors around frame names) (hg : Grows h h') (hsub : around ⊆ more) :
    h'.Mirrors more frame names := by
  induction names generalizing frame with
  | nil => exact hm
  | cons scope outer ih =>
    obtain ⟨hne, hbound, parent, hparent, hm⟩ := hm
    refine ⟨hne, fun name hname => ?_, parent, hg.parent? hparent, ih hm⟩
    exact (hbound name hname).imp hg.getOwn? fun hx => hsub hx

theorem grow (hm : h.Mirrors around frame names) (hg : Grows h h') : h'.Mirrors around frame names :=
  hm.mono hg (List.Subset.refl _)

/-- As many links as scopes, and no other number, lead to the outermost frame. -/
theorem ancestor?_eq_globalFrame_iff (hm : h.Mirrors around frame names) (hroot : h.parent? globalFrame = none)
    (n : Nat) : h.ancestor? frame n = some globalFrame ↔ n = names.length := by
  induction names generalizing frame n with
  | nil =>
    obtain rfl : frame = globalFrame := hm
    cases n with
    | zero => simp [ancestor?]
    | succ n => simp [ancestor?, hroot]
  | cons scope outer ih =>
    obtain ⟨hne, -, parent, hparent, hm⟩ := hm
    cases n with
    | zero => simp [ancestor?, hne]
    | succ n =>
      simp only [ancestor?, hparent, Option.bind_some, List.length_cons, Nat.add_right_cancel_iff]
      exact ih hm n

/-- The frame at the distance to the nearest scope that declares a name binds the name, unless it stands in its own
initializer. -/
theorem ancestor?_distance (hm : h.Mirrors around frame names) {name : String} {d : Nat}
    (hd : names.findIdx? (name ∈ ·) = some d) :
    ∃ target, h.ancestor? frame d = some target ∧ target ≠ globalFrame ∧
      ((h.getOwn? target name).isSome ∨ ∃ x ∈ around, x.name = name ∧ x.depth + d = names.length) := by
  induction names generalizing frame d with
  | nil => cases hd
  | cons scope outer ih =>
    obtain ⟨hne, hbound, parent, hparent, hm⟩ := hm
    rw [List.findIdx?_cons] at hd
    by_cases hmem : name ∈ scope
    · simp only [hmem, decide_true, if_true, Option.some.injEq] at hd
      subst hd
      exact ⟨frame, rfl, hne, (hbound name hmem).imp_right fun hx => ⟨_, hx, rfl, rfl⟩⟩
    · simp only [hmem, decide_false, Bool.false_eq_true, if_false, Option.map_eq_some_iff] at hd
      obtain ⟨d, hd, rfl⟩ := hd
      obtain ⟨target, ha, hnt, hb⟩ := ih hm hd
      refine ⟨target, ?_, hnt, hb.imp_right fun ⟨x, hx, hname, hdepth⟩ => ⟨x, hx, hname, ?_⟩⟩
      · simp only [ancestor?, hparent, Option.bind_some]
        exact ha
      · simp only [List.length_cons]
        omega

/-- A frame within the chain that binds the names of a scope mirrors one more scope. -/
theorem push (hm : h.Mirrors around frame names) {inner : FrameId} {bindings : Table Value} {scope : List String}
    (hinner : h.frame? inner = some ⟨bindings, some frame⟩) (hne : inner ≠ globalFrame)
    (hbound : ∀ name ∈ scope, (bindings.get? name).isSome) : h.Mirrors around inner (scope :: names) := by
  refine ⟨hne, fun name hname => Or.inl ?_, frame, by simp [parent?, hinner], hm⟩
  simpa [getOwn?, hinner] using hbound name hname

/-- The innermost frame exists unless it is the outermost one as well. -/
theorem exists_frame (hm : h.Mirrors around frame names) (hne : names ≠ []) : ∃ f, h.frame? frame = some f := by
  cases names with
  | nil => exact absurd rfl hne
  | cons scope outer =>
    obtain ⟨-, -, parent, hparent, -⟩ := hm
    obtain ⟨f, hf, -⟩ := exists_frame_of_parent? hparent
    exact ⟨f, hf⟩

theorem declareName (hm : h.Mirrors around frame names) {name : String}
    (hbound : names ≠ [] → (h.getOwn? frame name).isSome ∨ ⟨name, names.length⟩ ∈ around) :
    h.Mirrors around frame (Treewalk.declareName name names) := by
  cases names with
  | nil => exact hm
  | cons scope outer =>
    obtain ⟨hne, hall, hrest⟩ := hm
    refine ⟨hne, fun x hx => ?_, hrest⟩
    split at hx
    · exact hall x hx
    · rcases List.mem_append.mp hx with hx | hx
      · exact hall x hx
      · obtain rfl := List.mem_singleton.mp hx
        exact hbound (by simp)

/-- A name that is bound in the innermost frame may be declared in the innermost scope. -/
theorem define (hm : h.Mirrors around frame names) (name : String) (value : Value) :
    (h.define frame name value).Mirrors around frame (Treewalk.declareName name names) := by
  refine (hm.grow (Grows.define h frame name value)).declareName fun hne => Or.inl ?_
  obtain ⟨f, hf⟩ := hm.exists_frame hne
  exact Option.isSome_iff_exists.mpr ⟨value, getOwn?_define_self hf name value⟩

/-- Behind its initializer a variable is bound. -/
theorem discharge {name : String} (hm : h.Mirrors (⟨name, names.length⟩ :: around) frame names)
    (hbound : names ≠ [] → (h.getOwn? frame name).isSome) : h.Mirrors around frame names := by
  -- In the scopes further out no name is at the depth of the variable.
  have outer : ∀ (names : List (List String)) (depth : Nat) (frame : FrameId), names.length < depth →
      h.Mirrors (⟨name, depth⟩ :: around) frame names → h.Mirrors around frame names := by
    intro names depth
    induction names with
    | nil => exact fun _ _ hm => hm
    | cons scope outer ih =>
      rintro frame hlt ⟨hne, hall, parent, hparent, hm⟩
      simp only [List.length_cons] at hlt
      refine ⟨hne, fun x hx => (hall x hx).imp_right fun hmem => ?_, parent, hparent, ih parent (by omega) hm⟩
      rcases List.mem_cons.mp hmem with heq | hmem
      · cases heq
        omega
      · exact hmem
  cases names with
  | nil => exact hm
  | cons scope rest =>
    obtain ⟨hne, hall, parent, hparent, hm⟩ := hm
    refine ⟨hne, fun x hx => ?_, parent, hparent, outer rest _ parent (by simp) hm⟩
    rcases hall x hx with hb | hmem
    · exact Or.inl hb
    · rcases List.mem_cons.mp hmem with heq | hmem
      · cases heq
        exact Or.inl (hbound (by simp))
      · exact Or.inr hmem

end Mirrors

end Heap

/-! ### Sound heaps -/

/-- The routine was checked without a fault, in the given state and initializers, and its visits are known. -/
structure Routine.Checked (known : List Visit) (around : List Initializing) (kind : Enclosing) (r : Resolver)
    (routine : Routine) : Prop where
  shaped : routine.Shaped
  clean : (routine.resolve kind r).Clean
  visits : routine.visits around kind r ⊆ known

/-- A function stands in frames that mirror the scopes in which it was checked. -/
def Closure.Placed (known : List Visit) (h : Heap) (f : Closure) : Prop :=
  ∃ around kind r, f.routine.Checked known around kind r ∧ h.Mirrors around f.frame r.names

/-- A method stands in frames that mirror the scopes in which it was checked, apart from that of the receiver. -/
def Closure.PlacedAsMethod (known : List Visit) (h : Heap) (f : Closure) : Prop :=
  ∃ around kind r outer, f.routine.Checked known around kind r ∧ r.names = [receiverName] :: outer ∧
    h.Mirrors around f.frame outer

namespace Heap

/-- All functions and methods of the heap are placed, and nothing is around the outermost frame. -/
structure Sound (known : List Visit) (h : Heap) : Prop where
  outermost : ∃ f, h.frame? globalFrame = some f ∧ f.enclosing = none
  closures : ∀ id f, h.closure? id = some f → f.Placed known h
  methods : ∀ id c, h.class? id = some c → ∀ entry ∈ c.methods.entries, entry.2.PlacedAsMethod known h

/-- A change that lets a heap grow and keeps it sound. -/
structure Enlarges (known : List Visit) (h h' : Heap) : Prop where
  grows : Grows h h'
  sound : Sound known h → Sound known h'

end Heap

variable {known : List Visit} {h h' : Heap}

theorem Closure.Placed.grow {f : Closure} (hf : f.Placed known h) (hg : Heap.Grows h h') : f.Placed known h' := by
  obtain ⟨around, kind, r, hchecked, hm⟩ := hf
  exact ⟨around, kind, r, hchecked, hm.grow hg⟩

theorem Closure.PlacedAsMethod.grow {f : Closure} (hf : f.PlacedAsMethod known h) (hg : Heap.Grows h h') :
    f.PlacedAsMethod known h' := by
  obtain ⟨around, kind, r, outer, hchecked, hnames, hm⟩ := hf
  exact ⟨around, kind, r, outer, hchecked, hnames, hm.grow hg⟩

theorem Routine.Checked.mono {more : List Visit} {around : List Initializing} {kind : Enclosing} {r : Resolver}
    {routine : Routine} (hc : routine.Checked known around kind r) (hsub : known ⊆ more) :
    routine.Checked more around kind r :=
  ⟨hc.shaped, hc.clean, List.Subset.trans hc.visits hsub⟩

namespace Heap

/-- A heap is sound also if more visits are known. -/
theorem Sound.mono {more : List Visit} (hs : Sound known h) (hsub : known ⊆ more) : Sound more h := by
  refine ⟨hs.outermost, fun id f hf => ?_, fun id c hc entry he => ?_⟩
  · obtain ⟨around, kind, r, hchecked, hm⟩ := hs.closures id f hf
    exact ⟨around, kind, r, hchecked.mono hsub, hm⟩
  · obtain ⟨around, kind, r, outer, hchecked, hnames, hm⟩ := hs.methods id c hc entry he
    exact ⟨around, kind, r, outer, hchecked.mono hsub, hnames, hm⟩

theorem Sound.parent?_globalFrame (hs : Sound known h) : h.parent? globalFrame = none := by
  obtain ⟨f, hf, he⟩ := hs.outermost
  simp [parent?, hf, he]

/-- A new frame is not the outermost one. -/
theorem Sound.addFrame_ne (hs : Sound known h) (frame : Frame) : (h.addFrame frame).1 ≠ globalFrame := by
  obtain ⟨f, hf, -⟩ := hs.outermost
  intro heq
  have hsize : h.frames.size = 0 := congrArg FrameId.index heq
  rw [frame?, globalFrame, Array.getElem?_eq_none (by omega)] at hf
  cases hf

/-- Functions and classes that were there are placed in a grown heap; the others have to be. -/
theorem Sound.grow (hs : Sound known h) (hg : Grows h h')
    (hclosures : ∀ id f, h'.closure? id = some f → h.closure? id = some f ∨ f.Placed known h')
    (hclasses : ∀ id c, h'.class? id = some c → h.class? id = some c ∨
      ∀ entry ∈ c.methods.entries, entry.2.PlacedAsMethod known h') : Sound known h' := by
  refine ⟨?_, fun id f hf => ?_, fun id c hc => ?_⟩
  · obtain ⟨f, hf, he⟩ := hs.outermost
    obtain ⟨f', hf', he', -⟩ := hg _ f hf
    exact ⟨f', hf', he'.trans he⟩
  · exact (hclosures id f hf).elim (fun hf => (hs.closures id f hf).grow hg) fun hf => hf
  · exact (hclasses id c hc).elim (fun hc entry he => (hs.methods id c hc entry he).grow hg) fun hc => hc

namespace Enlarges

theorem refl (h : Heap) : Enlarges known h h := ⟨Grows.refl h, fun hs => hs⟩

theorem trans {h'' : Heap} (a : Enlarges known h h') (b : Enlarges known h' h'') : Enlarges known h h'' :=
  ⟨a.grows.trans b.grows, fun hs => b.sound (a.sound hs)⟩

/-- A change of frames only. -/
theorem of_grows (hg : Grows h h') (hclosures : h'.closures = h.closures) (hclasses : h'.classes = h.classes) :
    Enlarges known h h' :=
  ⟨hg, fun hs => hs.grow hg (fun id f hf => Or.inl (by rwa [closure?, hclosures] at hf))
    fun id c hc => Or.inl (by rwa [class?, hclasses] at hc)⟩

theorem define (h : Heap) (id : FrameId) (name : String) (value : Value) :
    Enlarges known h (h.define id name value) :=
  of_grows (Grows.define h id name value) rfl rfl

theorem addFrame (h : Heap) (frame : Frame) : Enlarges known h (h.addFrame frame).2 :=
  of_grows (Grows.addFrame h frame) rfl rfl

theorem addInstance (h : Heap) (i : Instance) : Enlarges known h (h.addInstance i).2 :=
  of_grows (Grows.of_frames rfl) rfl rfl

theorem setField (h : Heap) (id : InstanceId) (name : String) (value : Value) :
    Enlarges known h (h.setField id name value) :=
  of_grows (Grows.of_frames rfl) rfl rfl

end Enlarges

/-- Adds a function that is placed once a name has been bound besides. -/
theorem Sound.addClosure (hs : Sound known h) {f : Closure} (hg : Grows (h.addClosure f).2 h')
    (hclosures : h'.closures = (h.addClosure f).2.closures) (hclasses : h'.classes = h.classes)
    (hf : f.Placed known h') : Sound known h' := by
  refine hs.grow ((Grows.of_frames rfl : Grows h (h.addClosure f).2).trans hg) (fun id g hgid => ?_) fun id c hc => ?_
  · rw [closure?, hclosures] at hgid
    simp only [Heap.addClosure, Array.getElem?_push] at hgid
    split at hgid
    · cases hgid
      exact Or.inr hf
    · exact Or.inl hgid
  · exact Or.inl (by rwa [class?, hclasses] at hc)

/-- Adds a class whose methods are placed once a name has been bound besides. -/
theorem Sound.addClass (hs : Sound known h) {c : Class} (hg : Grows (h.addClass c).2 h')
    (hclosures : h'.closures = h.closures) (hclasses : h'.classes = (h.addClass c).2.classes)
    (hc : ∀ entry ∈ c.methods.entries, entry.2.PlacedAsMethod known h') : Sound known h' := by
  refine hs.grow ((Grows.of_frames rfl : Grows h (h.addClass c).2).trans hg) (fun id f hf => ?_) fun id d hd => ?_
  · exact Or.inl (by rwa [closure?, hclosures] at hf)
  · rw [class?, hclasses] at hd
    simp only [Heap.addClass, Array.getElem?_push] at hd
    split at hd
    · cases hd
      exact Or.inr hc
    · exact Or.inl hd

/-! ### Methods -/

/-- The classes above a class stand in the heap. -/
theorem exists_class?_of_mem_ancestryUpTo {count : Nat} {id : ClassId} {c : Class}
    (hc : c ∈ h.ancestryUpTo count id) : ∃ id', h.class? id' = some c := by
  induction count generalizing id with
  | zero => cases hc
  | succ count ih =>
    unfold ancestryUpTo at hc
    split at hc
    · cases hc
    · next first hfirst =>
      rcases List.mem_cons.mp hc with rfl | hc
      · exact ⟨id, hfirst⟩
      · split at hc
        · cases hc
        · exact ih hc

theorem Sound.findMethod? (hs : Sound known h) {id : ClassId} {name : String} {f : Closure}
    (hf : h.findMethod? id name = some f) : f.PlacedAsMethod known h := by
  obtain ⟨c, hc, hget⟩ := List.exists_of_findSome?_eq_some hf
  obtain ⟨id', hid⟩ := exists_class?_of_mem_ancestryUpTo hc
  exact hs.methods id' c hid _ (Table.mem_of_get? hget)

theorem Sound.lineage (hs : Sound known h) {id : ClassId} {c : Class} (hc : c ∈ h.lineage id) :
    ∀ entry ∈ c.methods.entries, entry.2.PlacedAsMethod known h := by
  obtain ⟨id', hid⟩ := exists_class?_of_mem_ancestryUpTo (List.mem_reverse.mp hc)
  exact hs.methods id' c hid

theorem Enlarges.bind (h : Heap) (method : Closure) (receiver : InstanceId) :
    Enlarges known h (h.bind method receiver).2 :=
  Enlarges.addFrame h _

/-- The frame of the receiver is what a method lacks. -/
theorem Sound.bind (hs : Sound known h) {method : Closure} (hm : method.PlacedAsMethod known h)
    (receiver : InstanceId) : (h.bind method receiver).1.Placed known (h.bind method receiver).2 := by
  obtain ⟨around, kind, r, outer, hchecked, hnames, hmirrors⟩ := hm
  refine ⟨around, kind, r, hchecked, ?_⟩
  rw [hnames]
  let frame : Frame := { bindings := ⟨[(receiverName, .object receiver)]⟩, enclosing := some method.frame }
  refine (hmirrors.grow (Grows.addFrame h frame)).push (frame?_addFrame_self h frame) (hs.addFrame_ne frame) ?_
  intro name hname
  obtain rfl := List.mem_singleton.mp hname
  simp [Table.get?, Table.lookup]

theorem Enlarges.bindValue {method : Closure} (hm : method.PlacedAsMethod known h) (receiver : InstanceId) :
    Enlarges known h (h.bindValue method receiver).2 := by
  have hb : Enlarges known h (h.bind method receiver).2 := Enlarges.bind h method receiver
  refine ⟨hb.grows.trans (Grows.of_frames rfl), fun hs => ?_⟩
  exact (hb.sound hs).addClosure (Grows.refl _) rfl rfl ((hs.bind hm receiver).grow (Grows.of_frames rfl))

theorem Enlarges.copyMethod {entry : String × Closure} (hm : entry.2.PlacedAsMethod known h) (id : InstanceId) :
    Enlarges known h (h.copyMethod id entry) :=
  (Enlarges.bindValue hm id).trans (Enlarges.setField _ id entry.1 _)

/-- A fold of changes, each of which needs something that growth preserves. -/
theorem Enlarges.foldl {α : Type} {P : α → Heap → Prop} {f : Heap → α → Heap}
    (hgrow : ∀ a {h h'}, P a h → Grows h h' → P a h') (hstep : ∀ a {h}, P a h → Enlarges known h (f h a)) :
    ∀ (items : List α) (h : Heap), (∀ a ∈ items, P a h) → Enlarges known h (items.foldl f h)
  | [], h, _ => refl h
  | a :: rest, h, hall => by
    have ha := hstep a (hall a List.mem_cons_self)
    refine ha.trans (Enlarges.foldl hgrow hstep rest (f h a) fun b hb => ?_)
    exact hgrow b (hall b (List.mem_cons_of_mem _ hb)) ha.grows

theorem Enlarges.copyMethods {c : Class} (hc : ∀ entry ∈ c.methods.entries, entry.2.PlacedAsMethod known h)
    (id : InstanceId) : Enlarges known h (h.copyMethods id c) := by
  refine Enlarges.foldl (P := fun entry h => entry.2.PlacedAsMethod known h) (fun _ {_ _} hm hg => hm.grow hg)
    (fun _ {_} hm => Enlarges.copyMethod hm id) _ _ fun entry he => ?_
  exact hc entry ((sortBy_perm _ _).mem_iff.mp he)

theorem Enlarges.copyLineage (hs : Sound known h) (id : InstanceId) (classId : ClassId) :
    Enlarges known h (h.copyLineage id classId) :=
  Enlarges.foldl (P := fun c h => ∀ entry ∈ c.methods.entries, entry.2.PlacedAsMethod known h)
    (fun _ {_ _} hc hg entry he => (hc entry he).grow hg) (fun _ {_} hc => Enlarges.copyMethods hc id) _ _
    fun _ hc => hs.lineage hc

end Heap

end Treewalk
