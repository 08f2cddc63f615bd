import Mathlib.Data.List.Forall2
import Treewalk.Proofs.Heap.Alignment
import Treewalk.Proofs.Heap.Relabeling

/-!
Heaps of two runs that part at some point, as far as values refer to them. Functions, classes and instances have the same
places on both sides, so that values are the same. A function stands for another one if their routines are counterparts
in layers that lay their chains side by side; a method lacks the frame of its receiver. Every operation on the one heap
has its like on the other.
-/

namespace Treewalk

variable {x : Parting} {links more : List Link}

/-! ### Options, tables and arrays -/

theorem rel_cases {α β : Type} {R : α → β → Prop} {a? : Option α} {b? : Option β} (h : Option.Rel R a? b?) :
    (a? = none ∧ b? = none) ∨ ∃ a b, a? = some a ∧ b? = some b ∧ R a b := by
  cases h with
  | some hab => exact .inr ⟨_, _, rfl, rfl, hab⟩
  | none => exact .inl ⟨rfl, rfl⟩

/-- Two tables with related values under the same names. -/
def Table.Alike {α β : Type} (R : α → β → Prop) (t : Table α) (t' : Table β) : Prop :=
  ∃ both : Table (α × β), t = both.map (·.1) ∧ t' = both.map (·.2) ∧ ∀ entry ∈ both.entries, R entry.2.1 entry.2.2

namespace Table.Alike

variable {α β : Type} {R S : α → β → Prop} {t : Table α} {t' : Table β}

theorem imp (h : t.Alike R t') (hRS : ∀ a b, R a b → S a b) : t.Alike S t' := by
  obtain ⟨both, rfl, rfl, hR⟩ := h
  exact ⟨both, rfl, rfl, fun entry hentry => hRS _ _ (hR entry hentry)⟩

theorem get? (h : t.Alike R t') (name : String) : Option.Rel R (t.get? name) (t'.get? name) := by
  obtain ⟨both, rfl, rfl, hR⟩ := h
  rw [get?_map, get?_map]
  cases hget : both.get? name with
  | none => exact .none
  | some pair => exact .some (hR _ (mem_of_get? hget))

theorem sorted (h : t.Alike R t') : List.Forall₂ (fun a b => b.1 = a.1 ∧ R a.2 b.2) t.sorted t'.sorted := by
  obtain ⟨both, rfl, rfl, hR⟩ := h
  rw [sorted_map, sorted_map, List.forall₂_map_left_iff, List.forall₂_map_right_iff, List.forall₂_same]
  exact fun entry hentry => ⟨rfl, hR entry ((sortBy_perm _ _).mem_iff.mp hentry)⟩

/-- A table beside itself. -/
theorem self {R : α → α → Prop} {t : Table α} (h : ∀ entry ∈ t.entries, R entry.2 entry.2) : t.Alike R t := by
  have hpairs : ∀ g : α × α → α, (∀ a, g (a, a) = a) → t = (t.map fun a => (a, a)).map g := by
    intro g hg
    obtain ⟨entries⟩ := t
    simp [Table.map, mapEntry, Function.comp_def, hg]
  refine ⟨t.map fun a => (a, a), hpairs (·.1) fun _ => rfl, hpairs (·.2) fun _ => rfl, fun entry hentry => ?_⟩
  obtain ⟨own, hown, rfl⟩ := List.mem_map.mp hentry
  exact h own hown

/-- Related values that are put under the same names. -/
theorem putAll {entries : List (String × α × β)} (h : ∀ entry ∈ entries, R entry.2.1 entry.2.2) :
    (Table.putAll {} (entries.map (mapEntry (·.1)))).Alike R (Table.putAll {} (entries.map (mapEntry (·.2)))) := by
  refine ⟨Table.putAll {} entries, putAll_map _ {} entries, putAll_map _ {} entries, fun entry hentry => ?_⟩
  rcases mem_putAll hentry with hmem | hmem
  · exact h entry hmem
  · cases hmem

end Table.Alike

/-- Two arrays of the same length with related items. -/
def InStep {α β : Type} (R : α → β → Prop) (xs : Array α) (ys : Array β) : Prop :=
  ys.size = xs.size ∧ ∀ i : Nat, Option.Rel R xs[i]? ys[i]?

namespace InStep

variable {α β : Type} {R S : α → β → Prop} {xs : Array α} {ys : Array β}

theorem imp (h : InStep R xs ys) (hRS : ∀ a b, R a b → S a b) : InStep S xs ys := by
  refine ⟨h.1, fun i => ?_⟩
  obtain ⟨ha, hb⟩ | ⟨a, b, ha, hb, hab⟩ := rel_cases (h.2 i)
  · rw [ha, hb]
    exact .none
  · rw [ha, hb]
    exact .some (hRS a b hab)

theorem push (h : InStep R xs ys) {a : α} {b : β} (hab : R a b) : InStep R (xs.push a) (ys.push b) := by
  refine ⟨by rw [Array.size_push, Array.size_push, h.1], fun i => ?_⟩
  rw [Array.getElem?_push, Array.getElem?_push, h.1]
  split
  · exact .some hab
  · exact h.2 i

end InStep

/-! ### Functions and classes -/

/-- The second function stands for the first one. The inner layers are those of frames that they lack yet. Initializers
find their receivers in frames that stand for each other. -/
def Closure.Alike (x : Parting) (links : List Link) (inner : Layers) (f f' : Closure) : Prop :=
  f'.isInitializer = f.isInitializer ∧ ∃ layers, Aligned x links layers f.frame f'.frame ∧
    (f.isInitializer = true → Layers.Level (inner ++ layers)) ∧
    Routine.Matches x.table x.table' (inner ++ layers) f.routine f'.routine

theorem Closure.Alike.mono {inner : Layers} {f f' : Closure} (h : f.Alike x links inner f') (hsub : links ⊆ more) :
    f.Alike x more inner f' := by
  obtain ⟨hinit, layers, hframe, hlevel, hroutine⟩ := h
  exact ⟨hinit, layers, hframe.mono hsub, hlevel, hroutine⟩

theorem Closure.Alike.arity_eq {inner : Layers} {f f' : Closure} (h : f.Alike x links inner f') : f'.arity = f.arity := by
  obtain ⟨-, layers, -, -, hroutine⟩ := h
  exact congrArg List.length hroutine.params_eq

/-- The second class stands for the first one. -/
structure Class.Alike (x : Parting) (links : List Link) (c c' : Class) : Prop where
  name : c'.name = c.name
  superclass : c'.superclass = c.superclass
  methods : c.methods.Alike (Closure.Alike x links [.shared]) c'.methods

theorem Class.Alike.mono {c c' : Class} (h : c.Alike x links c') (hsub : links ⊆ more) : c.Alike x more c' :=
  { h with methods := h.methods.imp fun _ _ hf => hf.mono hsub }

namespace Heap

/-- Two heaps to which values refer alike. -/
structure Alike (x : Parting) (links : List Link) (h h' : Heap) : Prop where
  frames : h.FramesAlike x links h'
  closures : InStep (Closure.Alike x links []) h.closures h'.closures
  classes : InStep (Class.Alike x links) h.classes h'.classes
  instances : h'.instances = h.instances

/-- Two properties that are the same field, or methods that stand for each other. -/
inductive Property.Alike (x : Parting) (links : List Link) : Property → Property → Prop
  | field {value : Value} : Property.Alike x links (.field value) (.field value)
  | method {f f' : Closure} (hf : f.Alike x links [.shared] f') : Property.Alike x links (.method f) (.method f')

namespace Alike

variable {h h' : Heap}

/-! ### Lookups -/

theorem closure? (ha : h.Alike x links h') (id : ClosureId) :
    Option.Rel (Closure.Alike x links []) (h.closure? id) (h'.closure? id) := ha.closures.2 id.index

theorem class? (ha : h.Alike x links h') (id : ClassId) :
    Option.Rel (Class.Alike x links) (h.class? id) (h'.class? id) := ha.classes.2 id.index

theorem instance? (ha : h.Alike x links h') (id : InstanceId) : h'.instance? id = h.instance? id := by
  unfold Heap.instance?
  rw [ha.instances]

theorem ancestryUpTo (ha : h.Alike x links h') (count : Nat) (id : ClassId) :
    List.Forall₂ (Class.Alike x links) (h.ancestryUpTo count id) (h'.ancestryUpTo count id) := by
  induction count generalizing id with
  | zero => exact .nil
  | succ count ih =>
    unfold Heap.ancestryUpTo
    obtain ⟨hc, hc'⟩ | ⟨c, c', hc, hc', hcc⟩ := rel_cases (ha.class? id)
    · rw [hc, hc']
      exact .nil
    · rw [hc, hc']
      dsimp only
      rw [hcc.superclass]
      refine .cons hcc ?_
      cases c.superclass with
      | none => exact .nil
      | some parent => exact ih parent

theorem ancestry (ha : h.Alike x links h') (id : ClassId) :
    List.Forall₂ (Class.Alike x links) (h.ancestry id) (h'.ancestry id) := by
  unfold Heap.ancestry
  rw [ha.classes.1]
  exact ha.ancestryUpTo _ id

theorem findMethod? (ha : h.Alike x links h') (id : ClassId) (name : String) :
    Option.Rel (Closure.Alike x links [.shared]) (h.findMethod? id name) (h'.findMethod? id name) := by
  have find : ∀ {cs cs' : List Class}, List.Forall₂ (Class.Alike x links) cs cs' →
      Option.Rel (Closure.Alike x links [.shared]) (cs.findSome? (·.methods.get? name))
        (cs'.findSome? (·.methods.get? name)) := by
    intro cs cs' hs
    induction hs with
    | nil => exact .none
    | cons hc _ ih =>
      rw [List.findSome?_cons, List.findSome?_cons]
      obtain ⟨hf, hf'⟩ | ⟨f, f', hf, hf', hff⟩ := rel_cases (hc.methods.get? name)
      · rw [hf, hf']
        exact ih
      · rw [hf, hf']
        exact .some hff
  exact find (ha.ancestry id)

theorem classArity (ha : h.Alike x links h') (id : ClassId) (name : String) :
    h'.classArity id name = h.classArity id name := by
  unfold Heap.classArity
  obtain ⟨hf, hf'⟩ | ⟨f, f', hf, hf', hff⟩ := rel_cases (ha.findMethod? id name)
  · rw [hf, hf']
  · rw [hf, hf']
    exact hff.arity_eq

theorem property? (ha : h.Alike x links h') (id : InstanceId) (name : String) :
    Option.Rel (Property.Alike x links) (h.property? id name) (h'.property? id name) := by
  unfold Heap.property?
  rw [ha.instance?]
  cases h.instance? id with
  | none => exact .none
  | some i =>
    rw [Option.bind_some, Option.bind_some]
    cases i.fields.get? name with
    | some value => exact .some .field
    | none =>
      dsimp only
      obtain ⟨hf, hf'⟩ | ⟨f, f', hf, hf', hff⟩ := rel_cases (ha.findMethod? i.classId name)
      · rw [hf, hf']
        exact .none
      · rw [hf, hf']
        exact .some (.method hff)

/-! ### Changes -/

/-- A change of frames alone, behind which all that stood for each other still does. -/
theorem withFrames (ha : h.Alike x links h') {k k' : Heap} (hf : k.FramesAlike x more k') (hsub : links ⊆ more)
    (hk : k.closures = h.closures ∧ k.classes = h.classes ∧ k.instances = h.instances)
    (hk' : k'.closures = h'.closures ∧ k'.classes = h'.classes ∧ k'.instances = h'.instances) :
    k.Alike x more k' := by
  refine ⟨hf, ?_, ?_, ?_⟩
  · rw [hk.1, hk'.1]
    exact ha.closures.imp fun _ _ hc => hc.mono hsub
  · rw [hk.2.1, hk'.2.1]
    exact ha.classes.imp fun _ _ hc => hc.mono hsub
  · rw [hk.2.2, hk'.2.2]
    exact ha.instances

theorem define (ha : h.Alike x links h') {f f' : FrameId} (ho : Opposite x links f f') (name : String) (value : Value) :
    (h.define f name value).Alike x links (h'.define f' name value) :=
  ha.withFrames (ha.frames.define ho name value) (List.Subset.refl _) ⟨rfl, rfl, rfl⟩ ⟨rfl, rfl, rfl⟩

/-- New frames with the same bindings stand for each other. -/
theorem addFrame (ha : h.Alike x links h') (bindings : Table Value) {layers : Layers} {p p' : FrameId}
    (hp : Aligned x links layers p p') :
    ∃ more, links ⊆ more ∧ (h.addFrame ⟨bindings, some p⟩).2.Alike x more (h'.addFrame ⟨bindings, some p'⟩).2 ∧
      Aligned x more (.shared :: layers) (h.addFrame ⟨bindings, some p⟩).1 (h'.addFrame ⟨bindings, some p'⟩).1 := by
  have hsub := List.subset_cons_self
    (Link.shared (h.addFrame ⟨bindings, some p⟩).1 (h'.addFrame ⟨bindings, some p'⟩).1 p p') links
  exact ⟨_, hsub, ha.withFrames (ha.frames.addShared bindings p p') hsub ⟨rfl, rfl, rfl⟩ ⟨rfl, rfl, rfl⟩,
    p, p', List.mem_cons_self, hp.mono hsub⟩

/-- A new frame in the first heap only. -/
theorem addFirst (ha : h.Alike x links h') {layers : Layers} {p f' : FrameId} (hp : Aligned x links layers p f') :
    ∃ more, links ⊆ more ∧ (h.addChild p).2.Alike x more h' ∧
      Aligned x more (.first :: layers) (h.addChild p).1 f' := by
  have hsub := List.subset_cons_self (Link.first (h.addChild p).1 p) links
  exact ⟨_, hsub, ha.withFrames (ha.frames.addFirst {} p) hsub ⟨rfl, rfl, rfl⟩ ⟨rfl, rfl, rfl⟩,
    p, List.mem_cons_self, hp.mono hsub⟩

/-- A new frame in the second heap only. -/
theorem addSecond (ha : h.Alike x links h') {layers : Layers} {f p' : FrameId} (hp : Aligned x links layers f p') :
    ∃ more, links ⊆ more ∧ h.Alike x more (h'.addChild p').2 ∧
      Aligned x more (.second :: layers) f (h'.addChild p').1 := by
  have hsub := List.subset_cons_self (Link.second (h'.addChild p').1 p') links
  exact ⟨_, hsub, ha.withFrames (ha.frames.addSecond {} p') hsub ⟨rfl, rfl, rfl⟩ ⟨rfl, rfl, rfl⟩,
    p', List.mem_cons_self, hp.mono hsub⟩

/-- A change of functions, classes or instances leaves the frames as they are. -/
theorem framesOf (ha : h.FramesAlike x links h') {k k' : Heap} (hk : k.frames = h.frames) (hk' : k'.frames = h'.frames) :
    k.FramesAlike x links k' := by
  obtain ⟨frames, _, _, _⟩ := k
  obtain ⟨frames', _, _, _⟩ := k'
  subst hk hk'
  exact ⟨ha.kept, ha.present, ha.inside, ha.outermost, ha.shared, ha.first, ha.second, ha.unique⟩

theorem addClosure (ha : h.Alike x links h') {f f' : Closure} (hf : f.Alike x links [] f') :
    (h'.addClosure f').1 = (h.addClosure f).1 ∧ (h.addClosure f).2.Alike x links (h'.addClosure f').2 :=
  ⟨congrArg ClosureId.mk ha.closures.1,
    { ha with frames := framesOf ha.frames rfl rfl, closures := ha.closures.push hf }⟩

theorem addClass (ha : h.Alike x links h') {c c' : Class} (hc : c.Alike x links c') :
    (h'.addClass c').1 = (h.addClass c).1 ∧ (h.addClass c).2.Alike x links (h'.addClass c').2 :=
  ⟨congrArg ClassId.mk ha.classes.1,
    { ha with frames := framesOf ha.frames rfl rfl, classes := ha.classes.push hc }⟩

theorem addInstance (ha : h.Alike x links h') (i : Instance) :
    (h'.addInstance i).1 = (h.addInstance i).1 ∧ (h.addInstance i).2.Alike x links (h'.addInstance i).2 := by
  refine ⟨congrArg (fun instances => InstanceId.mk (Array.size instances)) ha.instances,
    { ha with frames := framesOf ha.frames rfl rfl, instances := ?_ }⟩
  exact congrArg (Array.push · i) ha.instances

theorem setField (ha : h.Alike x links h') (id : InstanceId) (name : String) (value : Value) :
    (h.setField id name value).Alike x links (h'.setField id name value) := by
  refine { ha with frames := framesOf ha.frames rfl rfl, instances := ?_ }
  unfold Heap.setField
  rw [ha.instances]

/-! ### Methods bound to instances -/

theorem bind (ha : h.Alike x links h') {f f' : Closure} (hf : f.Alike x links [.shared] f') (id : InstanceId) :
    ∃ more, links ⊆ more ∧ (h.bind f id).2.Alike x more (h'.bind f' id).2 ∧
      (h.bind f id).1.Alike x more [] (h'.bind f' id).1 := by
  obtain ⟨hinit, layers, hframe, hlevel, hroutine⟩ := hf
  obtain ⟨more, hsub, hheap, hnew⟩ := ha.addFrame ⟨[(receiverName, .object id)]⟩ hframe
  exact ⟨more, hsub, hheap, hinit, _, hnew, hlevel, hroutine⟩

theorem bindValue (ha : h.Alike x links h') {f f' : Closure} (hf : f.Alike x links [.shared] f') (id : InstanceId) :
    ∃ more, links ⊆ more ∧ (h'.bindValue f' id).1 = (h.bindValue f id).1 ∧
      (h.bindValue f id).2.Alike x more (h'.bindValue f' id).2 := by
  obtain ⟨more, hsub, hheap, hbound⟩ := ha.bind hf id
  obtain ⟨hid, hadded⟩ := hheap.addClosure hbound
  exact ⟨more, hsub, congrArg Value.closure hid, hadded⟩

theorem copyMethod (ha : h.Alike x links h') {entry entry' : String × Closure} (hname : entry'.1 = entry.1)
    (hf : entry.2.Alike x links [.shared] entry'.2) (id : InstanceId) :
    ∃ more, links ⊆ more ∧ (h.copyMethod id entry).Alike x more (h'.copyMethod id entry') := by
  obtain ⟨more, hsub, hvalue, hheap⟩ := ha.bindValue hf id
  refine ⟨more, hsub, ?_⟩
  unfold Heap.copyMethod
  dsimp only
  rw [hvalue, hname]
  exact hheap.setField id entry.1 _

/-- Changes made one after another for items that stand for each other. -/
theorem foldl {α β : Type} {S : List Link → α → β → Prop} {step : Heap → α → Heap} {step' : Heap → β → Heap}
    (hmono : ∀ {links more a b}, S links a b → links ⊆ more → S more a b)
    (hstep : ∀ {links h h' a b}, Alike x links h h' → S links a b →
      ∃ more, links ⊆ more ∧ Alike x more (step h a) (step' h' b))
    {as : List α} {bs : List β} (hs : List.Forall₂ (S links) as bs) (ha : h.Alike x links h') :
    ∃ more, links ⊆ more ∧ (as.foldl step h).Alike x more (bs.foldl step' h') := by
  induction as generalizing bs h h' links with
  | nil =>
    cases hs
    exact ⟨links, List.Subset.refl _, ha⟩
  | cons a as ih =>
    obtain ⟨b, bs, hab, hrest, rfl⟩ := List.forall₂_cons_left_iff.mp hs
    obtain ⟨more, hsub, hheap⟩ := hstep ha hab
    obtain ⟨most, hsub', hlast⟩ := ih (hrest.imp fun _ _ h => hmono h hsub) hheap
    exact ⟨most, List.Subset.trans hsub hsub', hlast⟩

theorem copyMethods (ha : h.Alike x links h') {c c' : Class} (hc : c.Alike x links c') (id : InstanceId) :
    ∃ more, links ⊆ more ∧ (h.copyMethods id c).Alike x more (h'.copyMethods id c') :=
  foldl (S := fun links (a b : String × Closure) => b.1 = a.1 ∧ a.2.Alike x links [.shared] b.2)
    (fun hab hsub => ⟨hab.1, hab.2.mono hsub⟩) (fun hheap hab => hheap.copyMethod hab.1 hab.2 id) hc.methods.sorted ha

theorem copyLineage (ha : h.Alike x links h') (id : InstanceId) (classId : ClassId) :
    ∃ more, links ⊆ more ∧ (h.copyLineage id classId).Alike x more (h'.copyLineage id classId) :=
  foldl (S := Class.Alike x) (fun hc hsub => hc.mono hsub) (fun hheap hc => hheap.copyMethods hc id)
    (List.forall₂_reverse_iff.mpr (ha.ancestry classId)) ha

/-! ### Texts -/

theorem closureName (ha : h.Alike x links h') (id : ClosureId) : h'.closureName id = h.closureName id := by
  unfold Heap.closureName
  obtain ⟨hf, hf'⟩ | ⟨f, f', hf, hf', -, layers, -, -, hroutine⟩ := rel_cases (ha.closure? id)
  · rw [hf, hf']
  · rw [hf, hf']
    exact congrArg Token.lexeme hroutine.name_eq

theorem className (ha : h.Alike x links h') (id : ClassId) : h'.className id = h.className id := by
  unfold Heap.className
  obtain ⟨hc, hc'⟩ | ⟨c, c', hc, hc', hcc⟩ := rel_cases (ha.class? id)
  · rw [hc, hc']
  · rw [hc, hc']
    exact hcc.name

theorem instanceClassName (ha : h.Alike x links h') (id : InstanceId) :
    h'.instanceClassName id = h.instanceClassName id := by
  unfold Heap.instanceClassName
  rw [ha.instance?]
  cases h.instance? id with
  | none => rfl
  | some i => exact ha.className i.classId

end Alike

end Heap

mutual

/-- A value is printed alike from both heaps. -/
theorem Value.text_alike {h h' : Heap} (ha : h.Alike x links h') : ∀ v : Value, v.text h' = v.text h
  | .nil => rfl
  | .bool _ => rfl
  | .number _ => rfl
  | .string _ => rfl
  | .array items => by rw [Value.text, Value.text, Value.texts_alike ha items]
  | .closure id => by rw [Value.text, Value.text, ha.closureName]
  | .native _ => rfl
  | .classValue id => by rw [Value.text, Value.text, ha.className]
  | .object id => by rw [Value.text, Value.text, ha.instanceClassName]

theorem Value.texts_alike {h h' : Heap} (ha : h.Alike x links h') :
    ∀ vs : List Value, Value.texts h' vs = Value.texts h vs
  | [] => rfl
  | v :: rest => by rw [Value.texts, Value.texts, Value.text_alike ha v, Value.texts_alike ha rest]

end

end Treewalk
