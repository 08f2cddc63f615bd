import Treewalk.Proofs.Heap.Growth

/-!
Cells of a heap, and which of them mention which. A region is a set of cells, which may grow with the heap. A heap is
closed with respect to a region if all that is mentioned in the region lies in it. A change that touches cells of the
region only, and puts in what mentions cells of it only, keeps this (`Heap.Custody`); so do all that is made of such
changes.
-/

namespace Treewalk

/-- A part of a heap, known by where it stands. -/
inductive Cell where
  | frame (id : FrameId)
  | function (id : ClosureId)
  | kind (id : ClassId)
  | object (id : InstanceId)
deriving DecidableEq, Repr

/-! ### Mentions -/

/-- The value refers to the cell, itself or by an item. -/
inductive Value.Mentions : Value → Cell → Prop where
  | closure (id : ClosureId) : Mentions (.closure id) (.function id)
  | classValue (id : ClassId) : Mentions (.classValue id) (.kind id)
  | object (id : InstanceId) : Mentions (.object id) (.object id)
  | item {items v p} : v ∈ items → Mentions v p → Mentions (.array items) p

/-- A value of the table refers to the cell. -/
def Table.Mentions (t : Table Value) (p : Cell) : Prop :=
  ∃ name value, (name, value) ∈ t.entries ∧ value.Mentions p

def Frame.Mentions (f : Frame) (p : Cell) : Prop :=
  f.bindings.Mentions p ∨ ∃ parent, f.enclosing = some parent ∧ p = .frame parent

def Closure.Mentions (f : Closure) (p : Cell) : Prop := p = .frame f.frame

def Class.Mentions (c : Class) (p : Cell) : Prop :=
  (∃ parent, c.superclass = some parent ∧ p = .kind parent) ∨ ∃ name f, (name, f) ∈ c.methods.entries ∧ f.Mentions p

def Instance.Mentions (i : Instance) (p : Cell) : Prop := p = .kind i.classId ∨ i.fields.Mentions p

theorem Table.mentions_put {t : Table Value} {name : String} {value : Value} {p : Cell}
    (h : (t.put name value).Mentions p) : t.Mentions p ∨ value.Mentions p := by
  obtain ⟨key, found, hmem, hp⟩ := h
  rcases Table.mem_insert hmem with heq | hmem
  · cases heq
    exact Or.inr hp
  · exact Or.inl ⟨key, found, hmem, hp⟩

/-- The value mentions cells of the region only. -/
def Value.Within (Q : Cell → Prop) (v : Value) : Prop := ∀ p, v.Mentions p → Q p

namespace Value

variable {Q Q' : Cell → Prop}

theorem Within.imp {v : Value} (h : v.Within Q) (hQ : ∀ p, Q p → Q' p) : v.Within Q' := fun p hp => hQ p (h p hp)

theorem within_ofLiteral (value : Literal) : (ofLiteral value).Within Q := by
  cases value <;> exact nofun

theorem within_nil : Value.nil.Within Q := nofun
theorem within_bool (value : Bool) : (Value.bool value).Within Q := nofun
theorem within_number (value : Float) : (Value.number value).Within Q := nofun
theorem within_string (text : String) : (Value.string text).Within Q := nofun
theorem within_native (f : Native) : (Value.native f).Within Q := nofun

theorem within_closure {id : ClosureId} (h : Q (.function id)) : (Value.closure id).Within Q := by
  rintro _ ⟨⟩
  exact h

theorem within_classValue {id : ClassId} (h : Q (.kind id)) : (Value.classValue id).Within Q := by
  rintro _ ⟨⟩
  exact h

theorem within_object {id : InstanceId} (h : Q (.object id)) : (Value.object id).Within Q := by
  rintro _ ⟨⟩
  exact h

theorem within_array {items : List Value} (h : ∀ v ∈ items, v.Within Q) : (Value.array items).Within Q := by
  rintro p ⟨⟩
  next v hv hp => exact h v hv p hp

theorem Within.item {items : List Value} {v : Value} (h : (Value.array items).Within Q) (hv : v ∈ items) : v.Within Q :=
  fun p hp => h p (.item hv hp)

theorem Within.closure {id : ClosureId} (h : (Value.closure id).Within Q) : Q (.function id) := h _ (.closure id)

theorem Within.classValue {id : ClassId} (h : (Value.classValue id).Within Q) : Q (.kind id) := h _ (.classValue id)

theorem Within.object {id : InstanceId} (h : (Value.object id).Within Q) : Q (.object id) := h _ (.object id)

end Value

namespace Heap

/-- The heap has something at the cell. -/
def Has (h : Heap) : Cell → Prop
  | .frame id => id.index < h.frames.size
  | .function id => id.index < h.closures.size
  | .kind id => id.index < h.classes.size
  | .object id => id.index < h.instances.size

section Cells
variable {h : Heap} {p : Cell}

theorem Has.define (hp : h.Has p) (id : FrameId) (name : String) (value : Value) : (h.define id name value).Has p := by
  cases p with
  | frame key => exact Nat.lt_of_lt_of_eq hp Array.size_modify.symm
  | _ => exact hp

theorem Has.setField (hp : h.Has p) (id : InstanceId) (name : String) (value : Value) :
    (h.setField id name value).Has p := by
  cases p with
  | object key => exact Nat.lt_of_lt_of_eq hp Array.size_modify.symm
  | _ => exact hp

theorem Has.addFrame (hp : h.Has p) (f : Frame) : (h.addFrame f).2.Has p := by
  cases p with
  | frame key => exact Nat.lt_of_lt_of_eq (Nat.lt_succ_of_lt hp) (Array.size_push f).symm
  | _ => exact hp

theorem Has.addClosure (hp : h.Has p) (f : Closure) : (h.addClosure f).2.Has p := by
  cases p with
  | function key => exact Nat.lt_of_lt_of_eq (Nat.lt_succ_of_lt hp) (Array.size_push f).symm
  | _ => exact hp

theorem Has.addClass (hp : h.Has p) (c : Class) : (h.addClass c).2.Has p := by
  cases p with
  | kind key => exact Nat.lt_of_lt_of_eq (Nat.lt_succ_of_lt hp) (Array.size_push c).symm
  | _ => exact hp

theorem Has.addInstance (hp : h.Has p) (i : Instance) : (h.addInstance i).2.Has p := by
  cases p with
  | object key => exact Nat.lt_of_lt_of_eq (Nat.lt_succ_of_lt hp) (Array.size_push i).symm
  | _ => exact hp

end Cells

/-- What the heap has at the first place mentions the second one. -/
inductive Links (h : Heap) : Cell → Cell → Prop where
  | frame {id f q} : h.frame? id = some f → f.Mentions q → Links h (.frame id) q
  | function {id f q} : h.closure? id = some f → f.Mentions q → Links h (.function id) q
  | kind {id c q} : h.class? id = some c → c.Mentions q → Links h (.kind id) q
  | object {id i q} : h.instance? id = some i → i.Mentions q → Links h (.object id) q

theorem Links.has {h : Heap} {p q : Cell} (hl : h.Links p q) : h.Has p := by
  cases hl with
  | frame hf _ => exact (Array.getElem?_eq_some_iff.mp hf).1
  | function hf _ => exact (Array.getElem?_eq_some_iff.mp hf).1
  | kind hc _ => exact (Array.getElem?_eq_some_iff.mp hc).1
  | object hi _ => exact (Array.getElem?_eq_some_iff.mp hi).1

/-! ### Mentions behind changes -/

section Changes
variable {h : Heap} {p q : Cell}

theorem links_define {id : FrameId} {name : String} {value : Value} (hl : (h.define id name value).Links p q) :
    h.Links p q ∨ value.Mentions q := by
  cases hl with
  | @frame key f _ hf hq =>
    rw [frame?_define] at hf
    obtain ⟨old, hold, rfl⟩ := Option.map_eq_some_iff.mp hf
    split at hq
    · rcases hq with hq | hq
      · rcases Table.mentions_put hq with hq | hq
        · exact Or.inl (.frame hold (Or.inl hq))
        · exact Or.inr hq
      · exact Or.inl (.frame hold (Or.inr hq))
    · exact Or.inl (.frame hold hq)
  | function hf hq => exact Or.inl (.function hf hq)
  | kind hc hq => exact Or.inl (.kind hc hq)
  | object hi hq => exact Or.inl (.object hi hq)

theorem links_setField {id : InstanceId} {name : String} {value : Value} (hl : (h.setField id name value).Links p q) :
    h.Links p q ∨ value.Mentions q := by
  cases hl with
  | @object key i _ hi hq =>
    rw [instance?, setField, Array.getElem?_modify] at hi
    split at hi
    · obtain ⟨old, hold, rfl⟩ := Option.map_eq_some_iff.mp hi
      rcases hq with hq | hq
      · exact Or.inl (.object hold (Or.inl hq))
      · rcases Table.mentions_put hq with hq | hq
        · exact Or.inl (.object hold (Or.inr hq))
        · exact Or.inr hq
    · exact Or.inl (.object hi hq)
  | frame hf hq => exact Or.inl (.frame hf hq)
  | function hf hq => exact Or.inl (.function hf hq)
  | kind hc hq => exact Or.inl (.kind hc hq)

theorem links_addFrame {f : Frame} (hl : (h.addFrame f).2.Links p q) : h.Links p q ∨ f.Mentions q := by
  cases hl with
  | frame hf hq =>
    rw [frame?, addFrame, Array.getElem?_push] at hf
    split at hf
    · cases hf
      exact Or.inr hq
    · exact Or.inl (.frame hf hq)
  | function hf hq => exact Or.inl (.function hf hq)
  | kind hc hq => exact Or.inl (.kind hc hq)
  | object hi hq => exact Or.inl (.object hi hq)

theorem links_addClosure {f : Closure} (hl : (h.addClosure f).2.Links p q) : h.Links p q ∨ f.Mentions q := by
  cases hl with
  | function hf hq =>
    rw [closure?, addClosure, Array.getElem?_push] at hf
    split at hf
    · cases hf
      exact Or.inr hq
    · exact Or.inl (.function hf hq)
  | frame hf hq => exact Or.inl (.frame hf hq)
  | kind hc hq => exact Or.inl (.kind hc hq)
  | object hi hq => exact Or.inl (.object hi hq)

theorem links_addClass {c : Class} (hl : (h.addClass c).2.Links p q) : h.Links p q ∨ c.Mentions q := by
  cases hl with
  | kind hc hq =>
    rw [class?, addClass, Array.getElem?_push] at hc
    split at hc
    · cases hc
      exact Or.inr hq
    · exact Or.inl (.kind hc hq)
  | frame hf hq => exact Or.inl (.frame hf hq)
  | function hf hq => exact Or.inl (.function hf hq)
  | object hi hq => exact Or.inl (.object hi hq)

theorem links_addInstance {i : Instance} (hl : (h.addInstance i).2.Links p q) : h.Links p q ∨ i.Mentions q := by
  cases hl with
  | object hi hq =>
    rw [instance?, addInstance, Array.getElem?_push] at hi
    split at hi
    · cases hi
      exact Or.inr hq
    · exact Or.inl (.object hi hq)
  | frame hf hq => exact Or.inl (.frame hf hq)
  | function hf hq => exact Or.inl (.function hf hq)
  | kind hc hq => exact Or.inl (.kind hc hq)

end Changes

/-! ### Closed heaps -/

/-- All that the heap mentions in the region lies in it. -/
def Closed (h : Heap) (Q : Cell → Prop) : Prop := ∀ p q, Q p → h.Links p q → Q q

namespace Closed

variable {h : Heap} {Q : Cell → Prop}

theorem parent? (hc : h.Closed Q) {id parent : FrameId} (hid : Q (.frame id)) (hp : h.parent? id = some parent) :
    Q (.frame parent) := by
  obtain ⟨f, hf, he⟩ := exists_frame_of_parent? hp
  exact hc _ _ hid (.frame hf (Or.inr ⟨parent, he, rfl⟩))

theorem getOwn? (hc : h.Closed Q) {id : FrameId} {name : String} {value : Value} (hid : Q (.frame id))
    (hv : h.getOwn? id name = some value) : value.Within Q := by
  obtain ⟨f, hf, hget⟩ := Option.bind_eq_some_iff.mp hv
  exact fun p hp => hc _ _ hid (.frame hf (Or.inl ⟨name, value, Table.mem_of_get? hget, hp⟩))

theorem ancestor? (hc : h.Closed Q) {id target : FrameId} {distance : Nat} (hid : Q (.frame id))
    (ht : h.ancestor? id distance = some target) : Q (.frame target) := by
  induction distance generalizing id with
  | zero =>
    cases ht
    exact hid
  | succ distance ih =>
    obtain ⟨parent, hp, hrest⟩ := Option.bind_eq_some_iff.mp ht
    exact ih (hc.parent? hid hp) hrest

theorem chainUpTo (hc : h.Closed Q) {id : FrameId} {count : Nat} (hid : Q (.frame id)) :
    ∀ frame ∈ h.chainUpTo count id, Q (.frame frame) := by
  induction count generalizing id with
  | zero => exact nofun
  | succ count ih =>
    intro frame hmem
    rcases List.mem_cons.mp hmem with rfl | hmem
    · exact hid
    · split at hmem
      · cases hmem
      · next parent hp => exact ih (hc.parent? hid hp) frame hmem

theorem owner? (hc : h.Closed Q) {id target : FrameId} {name : String} (hid : Q (.frame id))
    (ht : h.owner? id name = some target) : Q (.frame target) :=
  hc.chainUpTo hid target (List.mem_of_find?_eq_some ht)

theorem closure? (hc : h.Closed Q) {id : ClosureId} {f : Closure} (hid : Q (.function id))
    (hf : h.closure? id = some f) : Q (.frame f.frame) := hc _ _ hid (.function hf rfl)

theorem ancestryUpTo (hc : h.Closed Q) {id : ClassId} {count : Nat} (hid : Q (.kind id)) :
    ∀ c ∈ h.ancestryUpTo count id, ∀ q, c.Mentions q → Q q := by
  induction count generalizing id with
  | zero => exact nofun
  | succ count ih =>
    intro c hmem q hq
    unfold Heap.ancestryUpTo at hmem
    split at hmem
    · cases hmem
    · next found hfound =>
      rcases List.mem_cons.mp hmem with rfl | hmem
      · exact hc _ _ hid (.kind hfound hq)
      · split at hmem
        · cases hmem
        · next parent hp => exact ih (hc _ _ hid (.kind hfound (Or.inl ⟨parent, hp, rfl⟩))) c hmem q hq

theorem method (hc : h.Closed Q) {id : ClassId} {c : Class} {entry : String × Closure} (hid : Q (.kind id))
    (hmem : c ∈ h.ancestry id) (hentry : entry ∈ c.methods.entries) : Q (.frame entry.2.frame) :=
  hc.ancestryUpTo hid c hmem _ (Or.inr ⟨entry.1, entry.2, hentry, rfl⟩)

theorem findMethod? (hc : h.Closed Q) {id : ClassId} {name : String} {f : Closure} (hid : Q (.kind id))
    (hf : h.findMethod? id name = some f) : Q (.frame f.frame) := by
  obtain ⟨c, hmem, hget⟩ := List.exists_of_findSome?_eq_some hf
  exact hc.method hid hmem (Table.mem_of_get? hget)

theorem property? (hc : h.Closed Q) {id : InstanceId} {name : String} {property : Property} (hid : Q (.object id))
    (hp : h.property? id name = some property) :
    match property with
    | .field value => value.Within Q
    | .method method => Q (.frame method.frame) := by
  obtain ⟨i, hi, hrest⟩ := Option.bind_eq_some_iff.mp hp
  cases hfield : i.fields.get? name with
  | some value =>
    rw [hfield] at hrest
    cases hrest
    exact fun p hp => hc _ _ hid (.object hi (Or.inr ⟨name, value, Table.mem_of_get? hfield, hp⟩))
  | none =>
    rw [hfield] at hrest
    obtain ⟨method, hmethod, rfl⟩ := Option.map_eq_some_iff.mp hrest
    exact hc.findMethod? (hc _ _ hid (.object hi (Or.inl rfl))) hmethod

end Closed

/-! ### Custody -/

/-- The heap is related to the one at the base, and closed with respect to the region. -/
structure Guarded (Q : Heap → Cell → Prop) (K : Heap → Heap → Prop) (h base : Heap) : Prop where
  since : K base h
  closed : h.Closed (Q h)

/-- A relation between heaps that, from the base on, is kept by changes in a region, where what is put in mentions cells of
the region only. What is new lies in the region. -/
class Custody (Q : Heap → Cell → Prop) (K : Heap → Heap → Prop) (base : Heap) : Prop where
  refl : ∀ h, K h h
  trans : ∀ {h h' h''}, K h h' → K h' h'' → K h h''
  mono : ∀ {h h' p}, K h h' → Q h p → Q h' p
  earlier : ∀ {h h' p}, K h h' → h.Has p → Q h' p → Q h p
  define : ∀ {h : Heap} {id name value}, K base h → Q h (.frame id) → value.Within (Q h) → K h (h.define id name value)
  setField : ∀ {h : Heap} {id name value}, K base h → Q h (.object id) → value.Within (Q h) →
    K h (h.setField id name value)
  addFrame : ∀ {h : Heap} {f : Frame}, K base h → (∀ p, f.Mentions p → Q h p) →
    K h (h.addFrame f).2 ∧ Q (h.addFrame f).2 (.frame (h.addFrame f).1)
  addClosure : ∀ {h : Heap} {f : Closure}, K base h → (∀ p, f.Mentions p → Q h p) →
    K h (h.addClosure f).2 ∧ Q (h.addClosure f).2 (.function (h.addClosure f).1)
  addClass : ∀ {h : Heap} {c : Class}, K base h → (∀ p, c.Mentions p → Q h p) →
    K h (h.addClass c).2 ∧ Q (h.addClass c).2 (.kind (h.addClass c).1)
  addInstance : ∀ {h : Heap} {i : Instance}, K base h → (∀ p, i.Mentions p → Q h p) →
    K h (h.addInstance i).2 ∧ Q (h.addInstance i).2 (.object (h.addInstance i).1)

/-- The second heap is related to the first one and guarded, like the first one. -/
structure Secures (Q : Heap → Cell → Prop) (K : Heap → Heap → Prop) (h base h' : Heap) : Prop where
  before : h.Guarded Q K base
  kept : K h h'
  after : h'.Guarded Q K base

namespace Secures

variable {Q : Heap → Cell → Prop} {K : Heap → Heap → Prop} {base : Heap} [Custody Q K base] {h h' h'' : Heap}

theorem refl (hg : h.Guarded Q K base) : h.Secures Q K base h := ⟨hg, Custody.refl Q base h, hg⟩

theorem trans (a : h.Secures Q K base h') (b : h'.Secures Q K base h'') : h.Secures Q K base h'' :=
  ⟨a.before, Custody.trans Q base a.kept b.kept, b.after⟩

theorem mono (a : h.Secures Q K base h') {p : Cell} (hp : Q h p) : Q h' p := Custody.mono base a.kept hp

/-- It is enough that what is newly mentioned lies in the region. -/
theorem of_links (hg : h.Guarded Q K base) (hK : K h h') (hlinks : ∀ p q, h'.Links p q → h.Links p q ∨ Q h q) :
    h.Secures Q K base h' := by
  refine ⟨hg, hK, Custody.trans Q base hg.since hK, fun p q hp hl => Custody.mono base hK ?_⟩
  rcases hlinks p q hl with hold | hq
  · exact hg.closed p q (Custody.earlier base hK hold.has hp) hold
  · exact hq

theorem define (hg : h.Guarded Q K base) {id : FrameId} {name : String} {value : Value} (hid : Q h (.frame id))
    (hv : value.Within (Q h)) : h.Secures Q K base (h.define id name value) :=
  of_links hg (Custody.define hg.since hid hv) fun _ _ hl => (links_define hl).imp_right (hv _)

theorem setField (hg : h.Guarded Q K base) {id : InstanceId} {name : String} {value : Value} (hid : Q h (.object id))
    (hv : value.Within (Q h)) : h.Secures Q K base (h.setField id name value) :=
  of_links hg (Custody.setField hg.since hid hv) fun _ _ hl => (links_setField hl).imp_right (hv _)

theorem addFrame (hg : h.Guarded Q K base) {f : Frame} (hf : ∀ p, f.Mentions p → Q h p) :
    h.Secures Q K base (h.addFrame f).2 ∧ Q (h.addFrame f).2 (.frame (h.addFrame f).1) := by
  have hadd := Custody.addFrame (Q := Q) hg.since hf
  exact ⟨of_links hg hadd.1 fun _ _ hl => (links_addFrame hl).imp_right (hf _), hadd.2⟩

theorem addClosure (hg : h.Guarded Q K base) {f : Closure} (hf : ∀ p, f.Mentions p → Q h p) :
    h.Secures Q K base (h.addClosure f).2 ∧ Q (h.addClosure f).2 (.function (h.addClosure f).1) := by
  have hadd := Custody.addClosure (Q := Q) hg.since hf
  exact ⟨of_links hg hadd.1 fun _ _ hl => (links_addClosure hl).imp_right (hf _), hadd.2⟩

theorem addClass (hg : h.Guarded Q K base) {c : Class} (hf : ∀ p, c.Mentions p → Q h p) :
    h.Secures Q K base (h.addClass c).2 ∧ Q (h.addClass c).2 (.kind (h.addClass c).1) := by
  have hadd := Custody.addClass (Q := Q) hg.since hf
  exact ⟨of_links hg hadd.1 fun _ _ hl => (links_addClass hl).imp_right (hf _), hadd.2⟩

theorem addInstance (hg : h.Guarded Q K base) {i : Instance} (hf : ∀ p, i.Mentions p → Q h p) :
    h.Secures Q K base (h.addInstance i).2 ∧ Q (h.addInstance i).2 (.object (h.addInstance i).1) := by
  have hadd := Custody.addInstance (Q := Q) hg.since hf
  exact ⟨of_links hg hadd.1 fun _ _ hl => (links_addInstance hl).imp_right (hf _), hadd.2⟩

theorem bind (hg : h.Guarded Q K base) {method : Closure} {receiver : InstanceId} (hm : Q h (.frame method.frame))
    (hr : Q h (.object receiver)) :
    h.Secures Q K base (h.bind method receiver).2 ∧ Q (h.bind method receiver).2 (.frame (h.bind method receiver).1.frame) := by
  refine addFrame hg fun p hp => ?_
  rcases hp with ⟨name, value, hmem, hp⟩ | ⟨parent, heq, rfl⟩
  · cases List.mem_singleton.mp hmem
    exact Value.within_object hr p hp
  · cases heq
    exact hm

theorem bindValue (hg : h.Guarded Q K base) {method : Closure} {receiver : InstanceId} (hm : Q h (.frame method.frame))
    (hr : Q h (.object receiver)) :
    h.Secures Q K base (h.bindValue method receiver).2 ∧
      (h.bindValue method receiver).1.Within (Q (h.bindValue method receiver).2) := by
  obtain ⟨hbind, hframe⟩ := bind hg hm hr
  obtain ⟨hadd, hid⟩ := addClosure hbind.after (f := (h.bind method receiver).1) (by rintro _ rfl; exact hframe)
  exact ⟨hbind.trans hadd, Value.within_closure hid⟩

theorem foldl {α : Type} {f : Heap → α → Heap} {items : List α} {P : Heap → α → Prop}
    (hP : ∀ {h h' a}, h.Secures Q K base h' → P h a → P h' a)
    (hf : ∀ h a, h.Guarded Q K base → P h a → h.Secures Q K base (f h a)) (hg : h.Guarded Q K base)
    (hitems : ∀ a ∈ items, P h a) :
    h.Secures Q K base (items.foldl f h) := by
  induction items generalizing h with
  | nil => exact refl hg
  | cons a rest ih =>
    have hfirst := hf h a hg (hitems a List.mem_cons_self)
    exact hfirst.trans (ih hfirst.after fun b hb => hP hfirst (hitems b (List.mem_cons_of_mem _ hb)))

theorem copyMethod (hg : h.Guarded Q K base) {id : InstanceId} {entry : String × Closure}
    (hm : Q h (.frame entry.2.frame)) (hid : Q h (.object id)) : h.Secures Q K base (h.copyMethod id entry) := by
  obtain ⟨hbind, hvalue⟩ := bindValue hg hm hid
  exact hbind.trans (setField hbind.after (hbind.mono hid) hvalue)

theorem copyLineage (hg : h.Guarded Q K base) {id : InstanceId} {classId : ClassId} (hid : Q h (.object id))
    (hclass : Q h (.kind classId)) : h.Secures Q K base (h.copyLineage id classId) := by
  refine foldl (P := fun h c => Q h (.object id) ∧ ∀ entry ∈ c.methods.entries, Q h (.frame entry.2.frame)) ?_ ?_ hg ?_
  · exact fun hs hP => ⟨hs.mono hP.1, fun entry he => hs.mono (hP.2 entry he)⟩
  · intro h c hg hP
    refine foldl (P := fun h entry => Q h (.object id) ∧ Q h (.frame entry.2.frame)) ?_ ?_ hg ?_
    · exact fun hs hP => ⟨hs.mono hP.1, hs.mono hP.2⟩
    · exact fun h entry hg hP => copyMethod hg hP.2 hP.1
    · exact fun entry he => ⟨hP.1, hP.2 entry ((sortBy_perm _ _).mem_iff.mp he)⟩
  · exact fun c hmem => ⟨hid, fun entry he => hg.closed.method hclass (List.mem_reverse.mp hmem) he⟩

end Secures

end Heap

end Treewalk
